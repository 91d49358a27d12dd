import Mathlib
import ShaderPress.Proofs.Batch.Finish
import ShaderPress.Proofs.Shader.OwnLine

/-! # The directives of a minified batch

Every shader of a batch is written from a lexed and stripped source, so what is known
of the lines of a layout holds of the text that is emitted for it.  A macro whose body is
blank once comments are gone is the exception that the condition names.
-/
namespace ShaderPress

namespace Batch
open Token
variable {b : Batch}

theorem Sound.isWritable (h : Sound b) (hb : b.options.humanReadable = false) {s : Shader}
    (hs : s ∈ b.settled.1) : ∀ u ∈ deep s.tokens, u.IsWritable := by
  obtain ⟨⟨dead, hd⟩, -⟩ := settled_false hb
  obtain ⟨u, hu, rfl⟩ := List.mem_map.mp (hd ▸ hs)
  obtain ⟨source, ho⟩ := h.lexed u hu
  exact isWritable_of_mem_strip ho dead

/-- Each shader of a batch is emitted, and its directives stand on lines of their own exactly
if none of them ends in a part for which nothing is written. -/
theorem emit_onOwnLines_iff {options : MinifyOptions} (hh : options.humanReadable = false)
    (sources : List (List Char × List Char)) {t : RenameTable}
    (ht : RenameTable.allocate (ofSources options sources).settled.2 false = .ok t) {s : Shader}
    (hs : s ∈ (ofSources options sources).settled.1) (preserve : Bool) :
    ∃ text newline,
      s.emit ⟨t, (ofSources options sources).settled.2, options⟩ preserve = .ok (text, newline) ∧
      (EmitContext.OnOwnLines ⟨t, (ofSources options sources).settled.2, options⟩ preserve s.tokens
          text newline ↔
        ∀ u ∈ s.tokens, u.isDirective = true → u.lineState = .ended) := by
  have h := sound_ofSources options sources
  have ho := options_ofSources options sources
  generalize ofSources options sources = b at h ho ht hs ⊢
  subst ho
  obtain ⟨text, newline, he⟩ := h.emit_isOk (hh ▸ ht) hs preserve
  refine ⟨text, newline, he, ?_⟩
  obtain ⟨htext, hnewline⟩ := Shader.emit_eq_ok.mp he
  subst hnewline
  rw [show b.options.humanReadable = false from hh] at htext ⊢
  exact EmitContext.onOwnLines_iff_of_spell (EmitContext.spellsOnOneLine ht b.options)
    (h.isWritable hh hs) htext

set_option maxRecDepth 8000 in
/-- A macro with a body is written on a line of its own. -/
theorem emit_onOwnLines_of_body :
    let b := ofSources {} [(['a'], "#define X 1\nX".toList)]
    let t : RenameTable := ⟨[(['X'], ['a'])]⟩
    RenameTable.allocate b.settled.2 false = .ok t ∧
      ∀ s ∈ b.settled.1, ∀ preserve, ∃ text newline,
        s.emit ⟨t, b.settled.2, {}⟩ preserve = .ok (text, newline) ∧
        EmitContext.OnOwnLines ⟨t, b.settled.2, {}⟩ preserve s.tokens text newline := by
  intro b t
  let shader : Shader := ⟨['a'],
    [.define ['#', 'd', 'e', 'f', 'i', 'n', 'e', ' ', 'X', ' ', '1'] 1 ['X'] none
      (some [.lexeme [' '] 1 .whitespace, .lexeme ['1'] 1 .intLiteral]),
    .lexeme ['\n'] 1 .whitespace, .lexeme ['X'] 2 .identifier]⟩
  have hb : b.settled = ([shader], ⟨[⟨['X'], 2, 1⟩], []⟩) := by
    simp only [b]
    cbv
  have ht : RenameTable.allocate b.settled.2 false = .ok t := by
    rw [hb]
    simp only [t]
    cbv
  refine ⟨ht, ?_⟩
  intro s hs preserve
  obtain ⟨text, newline, he, hiff⟩ := emit_onOwnLines_iff rfl _ ht hs preserve
  refine ⟨text, newline, he, hiff.mpr ?_⟩
  rw [hb] at hs
  cases List.mem_singleton.mp hs
  decide

set_option maxRecDepth 8000 in
/-- A macro whose body is blank does not end its line, and the next token goes on in it. -/
theorem not_onOwnLines_of_blank_body :
    let b := ofSources {} [(['a'], "#define X // c\nX y;".toList)]
    ∃ t, RenameTable.allocate b.settled.2 false = .ok t ∧ ∃ s ∈ b.settled.1,
      s.emit ⟨t, b.settled.2, {}⟩ false = .ok ("#define a a y;".toList, false) ∧
      ¬ EmitContext.OnOwnLines ⟨t, b.settled.2, {}⟩ false s.tokens "#define a a y;".toList false := by
  intro b
  let flag : Token := .define ['#', 'd', 'e', 'f', 'i', 'n', 'e', ' ', 'X', ' '] 1 ['X'] none
    (some [.lexeme [' '] 1 .whitespace])
  let behind : List Token := [.lexeme [' ', '\n'] 1 .whitespace, .lexeme ['X'] 2 .identifier,
    .lexeme [' '] 2 .whitespace, .lexeme ['y'] 2 .identifier, .lexeme [';'] 2 .operator]
  have hb : b.settled = ([⟨['a'], flag :: behind⟩], ⟨[⟨['X'], 2, 1⟩, ⟨['y'], 1, 1⟩], []⟩) := by
    simp only [b]
    cbv
  rw [hb]
  refine ⟨⟨[(['y'], ['y']), (['X'], ['a'])]⟩, ?_, ⟨['a'], flag :: behind⟩, ?_, ?_, ?_⟩
  · cbv
  · exact List.mem_singleton_self _
  · simp only [flag, behind]
    cbv
  · intro h
    obtain ⟨before, own, after, -, -, ho, -, -, hl⟩ := h.directive [] flag behind rfl rfl
    have hown : own = "#define a ".toList := by
      refine Except.ok.inj (ho.symm.trans ?_)
      simp only [flag]
      cbv
    rw [hown] at hl
    exact absurd hl (by decide)

end Batch

end ShaderPress
