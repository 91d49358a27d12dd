import Mathlib
import ShaderPress.Proofs.Batch.Single
import ShaderPress.Proofs.Shader.Spacing

/-! # Spacing is sufficient

A source without preprocessor lines comes out so that lexing it again gives the lexemes of
the source, each identifier respelled: no two lexemes merge, none is split, and neither a
comment nor a preprocessor line arises.
-/
namespace ShaderPress

namespace Batch
open Pattern Token
variable {file source : List Char} {tokens : List Token}

/-- A source without preprocessor lines is stripped of its comments only. -/
theorem settled_ofSources_singleton (h : (lex .reject source).outcome = .ok tokens)
    (hs : '#' ∉ source) :
    (ofSources {} [(file, source)]).settled.1 = [⟨file, strip keepAll tokens⟩] := by
  have hlex : (lex .pass source).outcome = .ok tokens := lexFrom_pass_of_reject h
  obtain ⟨⟨dead, hd⟩, -⟩ :=
    settled_false (b := ofSources {} [(file, source)]) (by rw [options_ofSources])
  have hstrip : strip dead tokens = strip keepAll tokens := by
    refine strip_congr fun x hx => ?_
    rw [definedNames_of_shaped (shaped_of_lexFrom h hs)] at hx
    exact absurd hx List.not_mem_nil
  rw [hd, shaders_ofSources_singleton hlex, List.map_singleton, Shader.without, hstrip]

/-- The emitted code of a source without preprocessor lines is lexed as the lexemes of the stripped
source with each identifier replaced by its name and each accessor by its canonical spelling. -/
theorem emit_relexed (h : (lex .reject source).outcome = .ok tokens) (hs : '#' ∉ source)
    (hclosed : ClosesComments tokens) (hints : KeepsIntsFromPoints tokens) {t : RenameTable}
    (ht : RenameTable.allocate (ofSources {} [(file, source)]).settled.2 false = .ok t) :
    let b := ofSources {} [(file, source)]
    let cx : EmitContext := ⟨t, b.settled.2, {}⟩
    b.settled.1 = [⟨file, strip keepAll tokens⟩] ∧
    ∀ preserve, ∃ text newline,
      Shader.emit ⟨file, strip keepAll tokens⟩ cx preserve = .ok (text, newline) ∧
      ∀ policy, ∃ again, (lex policy text).outcome = .ok again ∧
        (∀ u ∈ again, u.isDirective = false ∧ u.isComment = false) ∧
        lexemes asRead false again =
          lexemes (cx.respell preserve) false (strip keepAll tokens) := by
  intro b cx
  have hsettled : b.settled.1 = [⟨file, strip keepAll tokens⟩] := settled_ofSources_singleton h hs
  refine ⟨hsettled, fun preserve => ?_⟩
  obtain ⟨text, newline, hemit⟩ :=
    (sound_ofSources {} [(file, source)]).emit_isOk (by rw [options_ofSources]; exact ht)
      (s := ⟨file, strip keepAll tokens⟩) (by rw [hsettled]; exact List.mem_singleton_self _)
      preserve
  rw [options_ofSources] at hemit
  refine ⟨text, newline, hemit, fun policy => ?_⟩
  have hshaped := shaped_of_lexFrom h hs
  have hwords : cx.SpellsWords preserve :=
    fun x hx name hn => EmitContext.isWord_of_spelling ht {} hx hn
  have hspell := (Shader.emit_eq_ok.mp hemit).1
  have hreadable := readable_of_lexFrom h hs hclosed hints
  have htext := hash_not_mem_blankedComment h hs
  rw [strip_of_shaped keepAll hshaped] at hspell ⊢
  change cx.spell preserve (Layout.streamPieces false Layout.start _).1 = _ at hspell
  rw [(sameLayout_joined _ _).1] at hspell
  rw [lexemes_joined]
  exact EmitContext.lex_streamPieces hreadable hwords htext hspell policy

set_option maxRecDepth 8000 in
/-- Two slashes that a comment kept apart are written apart, an accessor is respelled, and a
`defined` test is read back as one. -/
theorem emit_relexed_of_slashes :
    let source := "v.rg/ /**/ /defined(@B)1u".toList
    let b := ofSources {} [(['a'], source)]
    let tokens : List Token := [.lexeme ['v'] 1 .identifier, .lexeme ['.'] 1 .operator,
      .lexeme ['r', 'g'] 1 .identifier, .lexeme ['/'] 1 .operator, .lexeme [' '] 1 .whitespace,
      .lexeme ['/', '*', '*', '/'] 1 .blockComment, .lexeme [' '] 1 .whitespace,
      .lexeme ['/'] 1 .operator,
      .definedTest ['d', 'e', 'f', 'i', 'n', 'e', 'd', '(', '@', 'B', ')'] 1 ['@', 'B'],
      .lexeme ['1', 'u'] 1 .intLiteral]
    let t : RenameTable := ⟨[(['x', 'y'], ['x', 'y']), (['v'], ['a']), (['@', 'B'], ['A'])]⟩
    (lex .reject source).outcome = .ok tokens ∧ RenameTable.allocate b.settled.2 false = .ok t ∧
      ∃ again, (lex .reject "a.xy/ /defined(B) 1u".toList).outcome = .ok again ∧
        (∀ u ∈ again, u.isDirective = false ∧ u.isComment = false) ∧
        lexemes asRead false again = lexemes (EmitContext.respell ⟨t, b.settled.2, {}⟩ true) false
          (strip keepAll tokens) := by
  intro source b tokens t
  have hlex : (lex .reject source).outcome = .ok tokens := by
    simp only [source, tokens]
    cbv
  have hsettled : b.settled = ([⟨['a'], strip keepAll tokens⟩],
      ⟨[⟨['v'], 1, 1⟩, ⟨['x', 'y'], 1, 1⟩, ⟨['@', 'B'], 1, 1⟩], [['@', 'B']]⟩) := by
    simp only [b, source, tokens]
    cbv
  have ht : RenameTable.allocate b.settled.2 false = .ok t := by
    rw [hsettled]
    simp only [t]
    cbv
  refine ⟨hlex, ht, ?_⟩
  obtain ⟨-, hall⟩ := emit_relexed hlex (by decide) (by decide) (by decide) ht
  obtain ⟨text, newline, hemit, hread⟩ := hall true
  have he : Shader.emit ⟨['a'], strip keepAll tokens⟩ ⟨t, b.settled.2, {}⟩ true =
      .ok ("a.xy/ /defined(B) 1u".toList, false) := by
    rw [hsettled]
    simp only [tokens, t]
    cbv
  obtain ⟨rfl, -⟩ := Prod.mk.inj (Except.ok.inj (hemit.symm.trans he))
  exact hread .reject

end Batch

end ShaderPress
