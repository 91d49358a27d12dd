import Mathlib
import ShaderPress.Proofs.Batch.Finish
import ShaderPress.Proofs.Shader.SingleLine

/-! # The logical lines of a minified batch

What is kept of the logical line of a directive comes out on a single line exactly if
no directive in it follows another token and nothing follows a directive that has ended
its line.  A comment inside a directive ends it for the lexer, so what follows the
comment in the source does not stay on the line.
-/
namespace ShaderPress

namespace Batch
open Token

theorem isWritable_onLogicalLine {policy : UnknownPolicy} {line : Nat} {source : List Char}
    {pre tokens : List Token} (h : (lexFrom policy line source).outcome = .ok (pre ++ tokens))
    (dead : Ident → Bool) : ∀ v ∈ deep (strip dead (onLogicalLine tokens)), v.IsWritable := by
  have hall := isWritable_of_lexFrom h
  rw [deep_append, List.forall_mem_append] at hall
  have hshallow : Shallow fun t => t.isComment = false → t.IsWritable :=
    ⟨fun _ _ _ => trivial, fun _ _ _ _ _ _ _ h _ => h rfl, fun _ _ _ _ _ _ => trivial⟩
  exact forall_deep_strip shallow_isWritable dead
    (forall_deep_startingWithin hshallow hall.2 _)

/-- Each shader of a batch is emitted, and what is kept of the logical line of a directive, if that
is kept itself, comes out on a single line exactly if it is unbroken. -/
theorem emit_onSingleLine_iff {options : MinifyOptions} (hh : options.humanReadable = false)
    (sources : List (List Char × List Char)) {t : RenameTable}
    (ht : RenameTable.allocate (ofSources options sources).settled.2 false = .ok t)
    (preserve : Bool) :
    ∃ dead, (ofSources options sources).settled.1 =
        (ofSources options sources).shaders.map (Shader.without dead) ∧
      ∀ s ∈ (ofSources options sources).shaders, ∃ text newline,
        (s.without dead).emit ⟨t, (ofSources options sources).settled.2, options⟩ preserve =
          .ok (text, newline) ∧
        ∀ pre u post, s.tokens = pre ++ u :: post → u.isDirective = true →
          u.isDropped dead = false →
          (EmitContext.OnSingleLine ⟨t, (ofSources options sources).settled.2, options⟩ preserve dead
              pre (onLogicalLine (u :: post)) text ↔
            isUnbrokenFrom .untouched (strip dead (onLogicalLine (u :: post))) = true) := by
  have h := sound_ofSources options sources
  have ho := options_ofSources options sources
  generalize ofSources options sources = b at h ho ht ⊢
  subst ho
  obtain ⟨⟨dead, hd⟩, -⟩ := settled_false hh
  refine ⟨dead, hd, ?_⟩
  intro s hs
  have hsettled : s.without dead ∈ b.settled.1 := by
    rw [hd]
    exact List.mem_map_of_mem hs
  obtain ⟨text, newline, he⟩ := h.emit_isOk (hh ▸ ht) hsettled preserve
  refine ⟨text, newline, he, ?_⟩
  intro pre u post htokens hu hdropped
  have htext := (Shader.emit_eq_ok.mp he).1
  rw [show b.options.humanReadable = false from hh, Shader.without, htokens] at htext
  obtain ⟨source, hlex⟩ := h.lexed s hs
  rw [htokens] at hlex
  exact EmitContext.onSingleLine_iff_of_spell (EmitContext.spellsOnOneLine ht b.options) hu hdropped
    htext _ (isWritable_onLogicalLine hlex dead)

set_option maxRecDepth 8000 in
/-- A condition comes out on the line of its directive. -/
theorem emit_onSingleLine_of_condition :
    let b := ofSources {} [(['a'], "#if A\nA".toList)]
    let t : RenameTable := ⟨[(['i', 'f'], ['i', 'f']), (['A'], ['a'])]⟩
    RenameTable.allocate b.settled.2 false = .ok t ∧
      ∃ dead, b.settled.1 = b.shaders.map (Shader.without dead) ∧
        ∀ s ∈ b.shaders, ∃ text newline,
          (s.without dead).emit ⟨t, b.settled.2, {}⟩ true = .ok (text, newline) ∧
          ∃ u post, s.tokens = u :: post ∧ u.isDirective = true ∧
            EmitContext.OnSingleLine ⟨t, b.settled.2, {}⟩ true dead [] (onLogicalLine (u :: post))
              text := by
  intro b t
  let test : Token := .directive ['#', 'i', 'f', ' ', 'A'] 1 (some [.lexeme ['i', 'f'] 1 .identifier,
    .lexeme [' '] 1 .whitespace, .lexeme ['A'] 1 .identifier])
  let behind : List Token := [.lexeme ['\n'] 1 .whitespace, .lexeme ['A'] 2 .identifier]
  have hb : b.settled = ([⟨['a'], test :: behind⟩], ⟨[⟨['i', 'f'], 1, 1⟩, ⟨['A'], 2, 2⟩], []⟩) := by
    simp only [b]
    cbv
  have hshaders : b.shaders = [⟨['a'], test :: behind⟩] := by
    simp only [b]
    cbv
  have ht : RenameTable.allocate b.settled.2 false = .ok t := by
    rw [hb]
    simp only [t]
    cbv
  obtain ⟨dead, hd, hall⟩ := emit_onSingleLine_iff rfl _ ht true
  refine ⟨ht, dead, hd, ?_⟩
  intro s hs
  obtain ⟨text, newline, he, hline⟩ := hall s hs
  rw [hshaders] at hs
  cases List.mem_singleton.mp hs
  refine ⟨text, newline, he, test, behind, rfl, rfl, ?_⟩
  refine (hline [] test behind rfl rfl rfl).mpr ?_
  have hon : onLogicalLine (test :: behind) = [test] := rfl
  rw [hon]
  simp only [test, strip, stripNested, blankedComment, attach]
  rfl

set_option maxRecDepth 8000 in
/-- What follows a comment in the body of a macro comes out on the next line. -/
theorem not_onSingleLine_of_comment :
    let b := ofSources {} [(['a'], "#define A 1 /**/ + 2\nA".toList)]
    let dead : Ident → Bool := fun _ => false
    ∃ t, RenameTable.allocate b.settled.2 false = .ok t ∧
      b.settled.1 = b.shaders.map (Shader.without dead) ∧ ∃ s ∈ b.shaders,
        (s.without dead).emit ⟨t, b.settled.2, {}⟩ false = .ok ("#define a 1\n+2 a".toList, false) ∧
        ∃ u post, s.tokens = u :: post ∧ u.isDirective = true ∧
          ¬ EmitContext.OnSingleLine ⟨t, b.settled.2, {}⟩ false dead [] (onLogicalLine (u :: post))
            "#define a 1\n+2 a".toList := by
  intro b dead
  let sum : Token := .define ['#', 'd', 'e', 'f', 'i', 'n', 'e', ' ', 'A', ' ', '1', ' '] 1 ['A'] none
    (some [.lexeme [' '] 1 .whitespace, .lexeme ['1'] 1 .intLiteral, .lexeme [' '] 1 .whitespace])
  let behind : List Token := [.lexeme ['/', '*', '*', '/'] 1 .blockComment,
    .lexeme [' '] 1 .whitespace, .lexeme ['+'] 1 .operator, .lexeme [' '] 1 .whitespace,
    .lexeme ['2'] 1 .intLiteral, .lexeme ['\n'] 1 .whitespace, .lexeme ['A'] 2 .identifier]
  have hs : b.shaders = [⟨['a'], sum :: behind⟩] := by
    simp only [b]
    cbv
  have hb : b.settled = (b.shaders.map (Shader.without dead), ⟨[⟨['A'], 2, 1⟩], []⟩) := by
    simp only [b, dead]
    cbv
  rw [hb, hs]
  refine ⟨⟨[(['A'], ['a'])]⟩, ?_, rfl, ⟨['a'], sum :: behind⟩, ?_, ?_, sum, behind, rfl, rfl, ?_⟩
  · cbv
  · exact List.mem_singleton_self _
  · simp only [sum, behind, dead]
    cbv
  · rintro ⟨_, _, own, _, _, _, hown, _, hn⟩
    have he : own = "#define a 1\n+2".toList := by
      refine Except.ok.inj (hown.symm.trans ?_)
      simp only [sum, behind, dead]
      cbv
    rw [he] at hn
    exact absurd hn (by decide)

end Batch

end ShaderPress
