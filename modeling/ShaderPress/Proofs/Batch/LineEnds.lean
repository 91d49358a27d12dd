import Mathlib
import ShaderPress.Proofs.Batch.Significant
import ShaderPress.Proofs.Batch.Single
import ShaderPress.Proofs.Token.KeepsLines

/-! # Batches whose lines end differently

Sources that keep their lines come out the same when each of their line feeds gets a carriage
return before it.  A line end behind a backslash in the body of a macro does not: blanks go on
behind it with and without the carriage return, bodies and line comments only without.
-/
namespace ShaderPress

namespace Batch
open Text Token
variable {options : MinifyOptions} {sources : List (List Char × List Char)}

theorem sameReading_crlf {policy : UnknownPolicy} {source : List Char} (hr : '\r' ∉ source)
    (hkeeps : keepsLines false source = true) : SameReading policy source (crlf source) := by
  have h := lexFrom_sameLines policy 1 (sameLines_crlf hr) hkeeps
  rw [SameReading, lex, lex]
  generalize lexFrom policy 1 source = x at h ⊢
  generalize lexFrom policy 1 (crlf source) = y at h ⊢
  cases h with
  | ok trail h => exact congrArg (fun tokens => (⟨trail, .ok tokens⟩ : Scan _)) (h false)
  | error => rfl

/-- Outside human-readable output sources that keep their lines are lexed alike and come out the
same when all their lines end in a carriage return and a line feed. -/
theorem finish_crlf (hh : options.humanReadable = false)
    (hr : ∀ s ∈ sources, '\r' ∉ s.2) (hkeeps : ∀ s ∈ sources, keepsLines false s.2 = true) :
    (∀ s ∈ sources, (lex options.unknown (crlf s.2)).outcome.map significantForm =
      (lex options.unknown s.2).outcome.map significantForm) ∧
    (ofSources options (sources.map fun s => (s.1, crlf s.2))).finish =
      (ofSources options sources).finish := by
  have hread : ∀ s ∈ sources, SameReading options.unknown s.2 (crlf s.2) :=
    fun s hs => sameReading_crlf (hr s hs) (hkeeps s hs)
  refine ⟨fun s hs => (hread s hs).outcome.symm, ?_⟩
  have hall : List.Forall₂ (fun s s' => SameReading options.unknown s.2 s'.2) sources
      (sources.map fun s => (s.1, crlf s.2)) := by
    rw [List.forall₂_map_right_iff, List.forall₂_same]
    exact hread
  have hb : ∀ sources, (ofSources options sources).options.humanReadable = false := by
    intro sources
    rw [options_ofSources, hh]
  have hsame := (alike_ofSources hall).sameOutput (sound_ofSources options _)
    (sound_ofSources options _) (hb _)
  refine (hsame.eq (hb _) (hb _) (names_eq_of_sameReading hall ?_)).symm
  rw [List.map_map]
  rfl

/-- A macro over one line, a conditional and a line comment. -/
theorem finish_crlf_of_macro :
    let source := "#define X 1\n#ifdef X // c\na = X;\n#endif\n".toList
    '\r' ∉ source ∧ keepsLines false source = true ∧
      (ofSources {} [(['a'], crlf source)]).finish = (ofSources {} [(['a'], source)]).finish := by
  intro source
  have hr : '\r' ∉ source := by decide
  have hkeeps : keepsLines false source = true := by
    simp only [source]
    cbv
  have h := @finish_crlf {} [(['a'], source)] rfl
    (fun s hs => List.mem_singleton.mp hs ▸ hr) fun s hs => List.mem_singleton.mp hs ▸ hkeeps
  exact ⟨hr, hkeeps, h.2⟩

set_option maxRecDepth 8000 in
/-- A macro over two lines loses its second line to the text behind it. -/
theorem not_finish_crlf_of_escaped :
    let source := "#define X 1 \\\n + 2\nX".toList
    '\r' ∉ source ∧ ∃ m m', (ofSources {} [(['a'], source)]).finish = .ok m ∧
      (ofSources {} [(['a'], crlf source)]).finish = .ok m' ∧
      m.artifacts.map (fun a => a.offline.contents) = ["#define a 1+2\na".toList] ∧
      m'.artifacts.map (fun a => a.offline.contents) = ["#define a 1\\\n+2 a".toList] := by
  intro source
  let define (text : List Char) (body : List Token) : Token := .define text 1 ['X'] none (some body)
  let plus : List Token := [.lexeme ['+'] 2 .operator, .lexeme [' '] 2 .whitespace,
    .lexeme ['2'] 2 .intLiteral]
  let one : List Token := [.lexeme [' '] 1 .whitespace, .lexeme ['1'] 1 .intLiteral]
  let left : List Token := [define "#define X 1 \\\n + 2".toList
      (one ++ .lexeme [' ', '\\', '\n', ' '] 1 .whitespace :: plus),
    .lexeme ['\n'] 2 .whitespace, .lexeme ['X'] 3 .identifier]
  let left' : List Token := define "#define X 1 \\\r".toList
      (one ++ [.lexeme [' '] 1 .whitespace, .lexeme ['\\'] 1 .unknown,
        .lexeme ['\r'] 1 .whitespace]) ::
    .lexeme ['\n', ' '] 1 .whitespace :: (plus ++ [.lexeme ['\r', '\n'] 2 .whitespace,
      .lexeme ['X'] 3 .identifier])
  let c : Catalog := ⟨[⟨['X'], 2, 1⟩], []⟩
  let t : RenameTable := ⟨[(['X'], ['a'])]⟩
  have hsettled : (ofSources {} [(['a'], source)]).settled = ([⟨['a'], left⟩], c) := by
    simp only [source, left, define, one, plus, c]
    cbv
  have hsettled' : (ofSources {} [(['a'], crlf source)]).settled = ([⟨['a'], left'⟩], c) := by
    simp only [source, left', define, one, plus, c]
    cbv
  have ht : RenameTable.allocate c false = .ok t := by
    simp only [c, t]
    cbv
  have htext : Shader.emit ⟨['a'], left⟩ ⟨t, c, {}⟩ true =
      .ok ("#define a 1+2\na".toList, false) := by
    simp only [left, define, one, plus, t, c]
    cbv
  have htext' : Shader.emit ⟨['a'], left'⟩ ⟨t, c, {}⟩ true =
      .ok ("#define a 1\\\n+2 a".toList, false) := by
    simp only [left', define, one, plus, t, c]
    cbv
  obtain ⟨m, a, hm, -, ha, newline, hemit⟩ :=
    (sound_ofSources {} _).finish_singleton (options_ofSources _ _) hsettled ht
  obtain ⟨m', a', hm', -, ha', newline', hemit'⟩ :=
    (sound_ofSources {} _).finish_singleton (options_ofSources _ _) hsettled' ht
  refine ⟨by decide, m, m', hm, hm', ?_, ?_⟩
  · rw [ha, ← (Prod.mk.inj (Except.ok.inj (hemit.symm.trans htext))).1]
    rfl
  · rw [ha', ← (Prod.mk.inj (Except.ok.inj (hemit'.symm.trans htext'))).1]
    rfl

end Batch

end ShaderPress
