import Mathlib
import ShaderPress.Proofs.Batch.Single
import ShaderPress.Proofs.Shader.RawConstant

/-! # The constants of a batch

Every file of a finished batch embeds the code that is emitted for it.  Under the namespaces of
the engine the constant reads as that code unless the mark that closes it stands in the code.
-/
namespace ShaderPress.Batch
open Shader Token
variable {options : MinifyOptions} {m : MinifiedBatch}

/-- The constant of every file whose stem does not hold the opening mark reads as the emitted
code, ended by a newline, exactly if the closing mark does not stand in that code. -/
theorem embedded_reads_iff (hnamespaces : options.namespaces = ({} : MinifyOptions).namespaces)
    (sources : List (List Char × List Char)) (hm : (ofSources options sources).finish = .ok m) :
    let b := ofSources options sources
    List.Forall₂ (fun s a => ∃ code newline,
      s.emit ⟨m.names, b.settled.2, options⟩ false = .ok (code, newline) ∧
      (¬ rawOpening <:+: s.stem →
        (rawConstant? a.embedded.contents = some (code ++ if newline then [] else ['\n']) ↔
          ¬ rawClosing <:+: code))) b.settled.1 m.artifacts := by
  intro b
  have hfinished : Finished b m := finished_of_finish hm
  have hoptions : b.options = options := options_ofSources options sources
  refine hfinished.rendered.imp ?_
  intro s a ha
  rw [hoptions] at ha
  obtain ⟨code, newline, hemit, hcontents⟩ := Artifacts.embedded_of_render ha
  refine ⟨code, newline, hemit, fun hstem => ?_⟩
  rw [hcontents]
  exact rawConstant?_embedded_iff hnamespaces hstem

theorem embedded_reads_of_parentheses :
    ∃ m a, (ofSources {} [("a.glsl".toList, "(1)".toList)]).finish = .ok m ∧ m.artifacts = [a] ∧
      rawConstant? a.embedded.contents = some "(1)\n".toList := by
  let s : Shader := ⟨"a.glsl".toList, [.lexeme ['('] 1 .operator, .lexeme ['1'] 1 .intLiteral,
    .lexeme [')'] 1 .operator]⟩
  have hs : (ofSources {} [("a.glsl".toList, "(1)".toList)]).settled = ([s], .empty) := by
    simp only [s]
    cbv
  obtain ⟨artifacts, hm, -⟩ := exists_finish_of_settled hs
  have hreads := @embedded_reads_iff {} _ rfl _ hm
  dsimp only at hreads
  rw [hs] at hreads
  cases hreads with
  | @cons _ a _ _ h rest =>
  cases rest
  obtain ⟨code, newline, hemit, hiff⟩ := h
  have htext : s.emit ⟨.empty, .empty, {}⟩ false = .ok ("(1)".toList, false) := by
    simp only [s]
    cbv
  obtain ⟨rfl, rfl⟩ := Prod.mk.inj (Except.ok.inj (htext.symm.trans hemit))
  refine ⟨_, a, hm, rfl, (hiff ?_).mpr ?_⟩
  · decide
  · decide

/-- Code in which the closing mark stands ends its constant there. -/
theorem not_embedded_reads_of_closing :
    ∃ m s a code newline, (ofSources {} [("a.glsl".toList, ")===\"".toList)]).finish = .ok m ∧
      (ofSources {} [("a.glsl".toList, ")===\"".toList)]).settled = ([s], .empty) ∧
      m.artifacts = [a] ∧ s.emit ⟨m.names, .empty, {}⟩ false = .ok (code, newline) ∧
      rawConstant? a.embedded.contents ≠ some (code ++ if newline then [] else ['\n']) := by
  let s : Shader := ⟨"a.glsl".toList, [.lexeme [')'] 1 .operator, .lexeme ['='] 1 .operator,
    .lexeme ['='] 1 .operator, .lexeme ['='] 1 .operator, .lexeme ['"'] 1 .unknown]⟩
  have hs : (ofSources {} [("a.glsl".toList, ")===\"".toList)]).settled = ([s], .empty) := by
    simp only [s]
    cbv
  obtain ⟨artifacts, hm, hrendered⟩ := exists_finish_of_settled hs
  cases hrendered with
  | @cons _ a _ _ ha rest =>
  cases rest
  obtain ⟨code, newline, hemit, hcontents⟩ := Artifacts.embedded_of_render ha
  have htext : s.emit ⟨.empty, .empty, {}⟩ false = .ok (")===\"".toList, false) := by
    simp only [s]
    cbv
  refine ⟨_, s, a, code, newline, hm, hs, rfl, hemit, ?_⟩
  obtain ⟨rfl, rfl⟩ := Prod.mk.inj (Except.ok.inj (htext.symm.trans hemit))
  rw [hcontents, ne_eq, rawConstant?_embedded_iff rfl (by decide), not_not]
  decide

end ShaderPress.Batch
