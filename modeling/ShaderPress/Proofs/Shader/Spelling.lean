import ShaderPress.Shader.Artifact
import ShaderPress.Proofs.Shader.Layout

/-! # Spelling a layout

The text of a layout is the texts of its pieces in a row.  Spelling fails only at an
identifier that has no name, so it succeeds where the table names all of them, and then
so does every artifact.
-/
namespace ShaderPress

namespace EmitContext
open Layout
variable {cx : EmitContext} {preserve : Bool}

@[simp] theorem spell_nil : cx.spell preserve [] = .ok [] := rfl

theorem spell_cons_eq_ok {p : Piece} {ps : List Piece} {text : List Char} :
    cx.spell preserve (p :: ps) = .ok text ↔
      ∃ a b, cx.spellPiece preserve p = .ok a ∧ cx.spell preserve ps = .ok b ∧ text = a ++ b := by
  rw [spell]
  cases cx.spellPiece preserve p with
  | error e =>
    constructor
    · intro h
      cases h
    · rintro ⟨a, b, ha, _⟩
      cases ha
  | ok a =>
    cases cx.spell preserve ps with
    | error e =>
      constructor
      · intro h
        cases h
      · rintro ⟨a, b, _, hb, _⟩
        cases hb
    | ok b =>
      constructor
      · intro h
        exact ⟨a, b, rfl, rfl, (Except.ok.inj h).symm⟩
      · rintro ⟨a', b', ha, hb, rfl⟩
        cases ha
        cases hb
        rfl

theorem spell_fixed_eq_ok {fixed text : List Char} {ps : List Piece} :
    cx.spell preserve (.fixed fixed :: ps) = .ok text ↔
      ∃ b, cx.spell preserve ps = .ok b ∧ text = fixed ++ b := by
  rw [spell_cons_eq_ok]
  constructor
  · rintro ⟨a, b, ha, hb, rfl⟩
    cases ha
    exact ⟨b, hb, rfl⟩
  · rintro ⟨b, hb, rfl⟩
    exact ⟨fixed, b, rfl, hb, rfl⟩

theorem spell_append_eq_ok {ps qs : List Piece} {text : List Char} :
    cx.spell preserve (ps ++ qs) = .ok text ↔
      ∃ a b, cx.spell preserve ps = .ok a ∧ cx.spell preserve qs = .ok b ∧ text = a ++ b := by
  induction ps generalizing text with
  | nil => simp
  | cons p ps ih =>
    rw [List.cons_append, spell_cons_eq_ok]
    constructor
    · rintro ⟨a, b, ha, hb, rfl⟩
      obtain ⟨c, d, hc, hd, rfl⟩ := ih.mp hb
      exact ⟨a ++ c, d, spell_cons_eq_ok.mpr ⟨a, c, ha, hc, rfl⟩, hd,
        (List.append_assoc a c d).symm⟩
    · rintro ⟨b, d, hb, hd, rfl⟩
      obtain ⟨a, c, ha, hc, rfl⟩ := spell_cons_eq_ok.mp hb
      exact ⟨a, c ++ d, ha, ih.mpr ⟨c, d, hc, hd, rfl⟩, List.append_assoc a c d⟩

theorem outputName_isOk {x : Ident} (h : (cx.names.get? x).isSome = true) :
    ∃ name, cx.outputName x = .ok name := by
  obtain ⟨name, hn⟩ := Option.isSome_iff_exists.mp h
  exact ⟨name, by simp only [outputName, hn]⟩

theorem spelling_isOk (preserve : Bool) {x : Ident} (h : (cx.names.get? x).isSome = true) :
    ∃ name, cx.spelling preserve x = .ok name := by
  unfold spelling
  split
  · exact ⟨_, rfl⟩
  · exact outputName_isOk h

/-- A layout whose identifiers all have names is spelled. -/
theorem spell_isOk (preserve : Bool) {ps : List Piece}
    (h : ∀ x ∈ Layout.names ps, (cx.names.get? x).isSome = true) :
    ∃ text, cx.spell preserve ps = .ok text := by
  induction ps with
  | nil => exact ⟨[], rfl⟩
  | cons p ps ih =>
    cases p with
    | fixed text =>
      obtain ⟨rest, hr⟩ := ih h
      exact ⟨_, spell_cons_eq_ok.mpr ⟨text, rest, rfl, hr, rfl⟩⟩
    | name x =>
      rw [names_name, List.forall_mem_cons] at h
      obtain ⟨name, hn⟩ := spelling_isOk preserve h.1
      obtain ⟨rest, hr⟩ := ih h.2
      exact ⟨_, spell_cons_eq_ok.mpr ⟨name, rest, hn, hr, rfl⟩⟩

theorem exportLines_isOk {xs : List Ident} (h : ∀ x ∈ xs, (cx.names.get? x).isSome = true) :
    ∃ text, cx.exportLines xs = .ok text := by
  induction xs with
  | nil => exact ⟨[], rfl⟩
  | cons x xs ih =>
    rw [List.forall_mem_cons] at h
    obtain ⟨name, hn⟩ := outputName_isOk h.1
    obtain ⟨rest, hr⟩ := ih h.2
    exact ⟨_, by rw [exportLines, hn, hr]; rfl⟩

end EmitContext

namespace Shader
variable {cx : EmitContext} {s : Shader} {preserve : Bool}

theorem emit_eq_ok {text : List Char} {newline : Bool} :
    s.emit cx preserve = .ok (text, newline) ↔
      cx.spell preserve (layout cx.options.humanReadable s.tokens).1 = .ok text ∧
        (layout cx.options.humanReadable s.tokens).2 = newline := by
  rw [emit]
  obtain ⟨pieces, ended⟩ := layout cx.options.humanReadable s.tokens
  dsimp only
  cases cx.spell preserve pieces with
  | error e =>
    constructor
    · intro h
      cases h
    · rintro ⟨h, _⟩
      cases h
  | ok code =>
    constructor
    · intro h
      cases h
      exact ⟨rfl, rfl⟩
    · rintro ⟨h, rfl⟩
      cases h
      rfl

theorem emit_isOk (preserve : Bool)
    (h : ∀ x ∈ Layout.names (layout cx.options.humanReadable s.tokens).1,
      (cx.names.get? x).isSome = true) :
    ∃ code, s.emit cx preserve = .ok code := by
  obtain ⟨text, ht⟩ := EmitContext.spell_isOk preserve h
  exact ⟨(text, _), emit_eq_ok.mpr ⟨ht, rfl⟩⟩

end Shader

/-- A shader is written whenever its identifiers and the exports of the batch have names. -/
theorem Artifacts.render_isOk {cx : EmitContext} {s : Shader}
    (hs : ∀ x ∈ Layout.names (layout cx.options.humanReadable s.tokens).1,
      (cx.names.get? x).isSome = true)
    (he : ∀ x ∈ cx.catalog.exports, (cx.names.get? x).isSome = true) :
    ∃ artifacts, render cx s = .ok artifacts := by
  obtain ⟨lines, hl⟩ := EmitContext.exportLines_isOk he
  obtain ⟨embedded, hm⟩ := Shader.emit_isOk false hs
  obtain ⟨offline, ho⟩ := Shader.emit_isOk true hs
  exact ⟨_, by
    rw [render, Shader.exportsHeader, Shader.embeddedSource, Shader.offlineSource, hl, hm, ho]
    rfl⟩

end ShaderPress
