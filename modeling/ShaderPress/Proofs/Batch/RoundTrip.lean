import Mathlib
import ShaderPress.Proofs.Batch.Again
import ShaderPress.Proofs.Shader.Legible

/-! # Minifying what has been minified

A source without sigils is minified; then its offline code is minified again.  The code
stays as it is, unless it is not read back as it was written, or the first run left a macro
that nothing refers to, or gave an identifier behind a point the name of an accessor.
-/
namespace ShaderPress

namespace Batch
open EmitContext Ident Layout Pattern Token Shader
variable {file source : List Char} {tokens : List Token} {t : RenameTable}

/-- Minifying the offline code of a file gives the same code once more. -/
def RoundTrips (file : List Char) (a : Artifacts) : Prop :=
  ∃ m a', (ofSources {} [(file, a.offline.contents)]).finish = .ok m ∧ m.artifacts = [a'] ∧
    a'.offline.contents = a.offline.contents ∧ a'.embedded.contents = a.embedded.contents

/-- If the code of a stream is read back as it was written, it comes out of minifying it once more
unchanged exactly if its macros are referenced and it keeps its accessors. -/
theorem roundTrips_iff_of_readsBack {left : List Token} {a : Artifacts}
    (h : RenameTable.allocate (Catalog.empty.replay (occurrences left)) false = .ok t)
    (hwords : ∀ x ∈ mentioned left, IsWord x) (hcomment : ∀ u ∈ deep left, u.isComment = false)
    (hemit : ∀ preserve, Shader.emit ⟨file, left⟩ ⟨t, Catalog.empty.replay (occurrences left), {}⟩
      preserve = .ok (textFrom (respell ⟨t, Catalog.empty.replay (occurrences left), {}⟩ true) start
        left))
    (hrender : Artifacts.render ⟨t, Catalog.empty.replay (occurrences left), {}⟩ ⟨file, left⟩ =
      .ok a)
    (hread : ReadsBack ⟨t, Catalog.empty.replay (occurrences left), {}⟩ left a.offline.contents) :
    RoundTrips file a ↔ AllLive (Catalog.empty.replay (occurrences left)) [⟨file, left⟩] ∧
      KeepsAccessors ⟨t, Catalog.empty.replay (occurrences left), {}⟩ left := by
  have hsites : ∀ p ∈ sites left, IsWord p.2.name :=
    fun p hp => hwords _ (name_mem_mentioned false p hp)
  obtain ⟨again, hagain, hread⟩ := hread
  rw [keepsAccessors_iff hread]
  constructor
  · rintro ⟨m, a', hm, ha, hoffline, -⟩
    obtain ⟨dead, hnone, hsettled⟩ :=
      settled_of_words file hagain (isWord_of_readsBack h hsites hread)
    obtain ⟨t', a'', ht, hrender', rfl⟩ :=
      (finish_of_settled (by rw [options_ofSources]) hsettled).mp hm
    obtain rfl := List.singleton_inj.mp ha
    have hagainWords := isWord_of_mem_mentioned_again h hsites hagain hread
    have hemit' := (sound_ofSources {} [(file, a.offline.contents)]).emit_singleton
      (options_ofSources _ _) hsettled ht (switches_of_words fun p hp =>
        isWord_of_mem_mentioned_strip hagainWords dead _ (name_mem_mentioned false p hp)) true
    rw [options_ofSources] at hrender'
    obtain ⟨newline, htext⟩ := Artifacts.emit_of_render hrender
    obtain ⟨newline', htext'⟩ := Artifacts.emit_of_render hrender'
    rw [hemit, Except.ok.injEq] at htext
    rw [hemit', Except.ok.injEq] at htext'
    obtain ⟨hremoved, hkeeps⟩ := of_textFrom_again h hsites hagain hread hcomment ht (by
      rw [htext, htext', hoffline])
    exact ⟨(allLive_of_readsBack h hsites hread file).mp (hnone.mp hremoved), hkeeps⟩
  · rintro ⟨hlive, hkeeps⟩
    obtain ⟨m, hm, ha⟩ := finish_again h hsites hagain hread hcomment hemit hrender hlive hkeeps
    exact ⟨m, a, hm, ha, rfl, rfl⟩

/-- The code of a source without sigils, if it is read back as it was written, comes out of
minifying it once more unchanged exactly if all macros that were left are referenced and no
identifier behind a point has been given a name that reads as an accessor. -/
theorem roundTrips_iff (hlex : (lex .pass source).outcome = .ok tokens)
    (hsigil : '@' ∉ source ∧ '$' ∉ source) {m : MinifiedBatch}
    (hm : (ofSources {} [(file, source)]).finish = .ok m) :
    ∃ left c a, (ofSources {} [(file, source)]).settled = ([⟨file, left⟩], c) ∧ m.artifacts = [a] ∧
      (ReadsBack ⟨m.names, c, {}⟩ left a.offline.contents →
        (RoundTrips file a ↔ AllLive c [⟨file, left⟩] ∧ KeepsAccessors ⟨m.names, c, {}⟩ left)) := by
  have hwords := isWord_of_mem_mentioned hlex hsigil
  obtain ⟨dead, a, hsettled, ha, ht, hrender, hemit⟩ := finish_of_words hlex hwords hm
  exact ⟨_, _, a, hsettled, ha, roundTrips_iff_of_readsBack ht
    (isWord_of_mem_mentioned_strip hwords dead) (isComment_of_mem_strip dead tokens) hemit hrender⟩

/-- With its preprocessor lines a code is read back if what is left of the source is legible: each
line is filled by its parts, none of which is a directive. -/
theorem roundTrips_iff_of_legible (h : (lex .reject source).outcome = .ok tokens)
    (hsigil : '@' ∉ source ∧ '$' ∉ source) {m : MinifiedBatch}
    (hm : (ofSources {} [(file, source)]).finish = .ok m) :
    ∃ left c a, (ofSources {} [(file, source)]).settled = ([⟨file, left⟩], c) ∧ m.artifacts = [a] ∧
      (Legible ⟨m.names, c, {}⟩ true left →
        (RoundTrips file a ↔ AllLive c [⟨file, left⟩] ∧ KeepsAccessors ⟨m.names, c, {}⟩ left)) := by
  have hlex : (lex .pass source).outcome = .ok tokens := lexFrom_pass_of_reject h
  have hwords := isWord_of_mem_mentioned hlex hsigil
  obtain ⟨dead, a, hsettled, ha, ht, hrender, hemit⟩ := finish_of_words hlex hwords hm
  have hcomment := isComment_of_mem_strip dead tokens
  refine ⟨_, _, a, hsettled, ha, fun hlegible => ?_⟩
  obtain ⟨newline, htext⟩ := Artifacts.emit_of_render hrender
  have hread := readsBack_of_legible hlegible (formed_of_mem_strip h dead)
    (endsWords_of_mem_strip h dead) hcomment
    (fun x hx name hn => EmitContext.isWord_of_spelling ht {} hx hn) (Shader.emit_eq_ok.mp htext).1
  exact roundTrips_iff_of_readsBack ht (isWord_of_mem_mentioned_strip hwords dead) hcomment hemit
    hrender hread

set_option maxRecDepth 8000 in
/-- A macro and an accessor are written as they were once more. -/
theorem roundTrips_of_macro :
    let source := "#define K 2\nv.rg*K".toList
    ∃ m a, (ofSources {} [(['a'], source)]).finish = .ok m ∧ m.artifacts = [a] ∧
      a.offline.contents = "#define a 2\nc.xy*a".toList ∧ RoundTrips ['a'] a := by
  intro source
  let left : List Token := [.define "#define K 2".toList 1 ['K'] none
      (some [.lexeme [' '] 1 .whitespace, .lexeme ['2'] 1 .intLiteral]),
    .lexeme ['\n'] 1 .whitespace, .lexeme ['v'] 2 .identifier, .lexeme ['.'] 2 .operator,
    .lexeme ['r', 'g'] 2 .identifier, .lexeme ['*'] 2 .operator, .lexeme ['K'] 2 .identifier]
  let c : Catalog := ⟨[⟨['K'], 2, 1⟩, ⟨['v'], 1, 1⟩, ⟨['x', 'y'], 1, 1⟩], []⟩
  let t : RenameTable := ⟨[(['x', 'y'], ['x', 'y']), (['K'], ['a']), (['v'], ['c'])]⟩
  have hlex : (lex .pass source).outcome = .ok left := by
    simp only [source, left]
    cbv
  have hsettled : (ofSources {} [(['a'], source)]).settled = ([⟨['a'], left⟩], c) := by
    simp only [source, left, c]
    cbv
  have ht : RenameTable.allocate c false = .ok t := by
    simp only [c, t]
    cbv
  have htext : Shader.emit ⟨['a'], left⟩ ⟨t, c, {}⟩ true =
      .ok ("#define a 2\nc.xy*a".toList, false) := by
    simp only [left, t, c]
    cbv
  obtain ⟨m, a, hm, hnames, ha, newline, hemit⟩ :=
    (sound_ofSources {} _).finish_singleton (options_ofSources _ _) hsettled ht
  obtain ⟨hoffline, -⟩ := Prod.mk.inj (Except.ok.inj (hemit.symm.trans htext))
  refine ⟨m, a, hm, ha, hoffline, ?_⟩
  obtain ⟨left', c', a', hsettled', ha', hround⟩ := roundTrips_iff hlex (by decide) hm
  obtain ⟨hs, rfl⟩ := Prod.mk.inj (hsettled.symm.trans hsettled')
  obtain ⟨-, rfl⟩ := Shader.mk.inj (List.singleton_inj.mp hs)
  obtain rfl := List.singleton_inj.mp (ha.symm.trans ha')
  rw [hnames, hoffline] at hround
  have hread : EmitContext.ReadsBack ⟨t, c, {}⟩ left "#define a 2\nc.xy*a".toList := by
    refine ⟨[.define "#define a 2".toList 1 ['a'] none
        (some [.lexeme [' '] 1 .whitespace, .lexeme ['2'] 1 .intLiteral]),
      .lexeme ['\n'] 1 .whitespace, .lexeme ['c'] 2 .identifier, .lexeme ['.'] 2 .operator,
      .lexeme ['x', 'y'] 2 .identifier, .lexeme ['*'] 2 .operator, .lexeme ['a'] 2 .identifier],
      by cbv, ?_⟩
    simp only [left, t, c]
    cbv
  have hlive : AllLive c [⟨['a'], left⟩] := by
    simp [AllLive, left, c, Catalog.referenceCount, Catalog.find?]
  have hkeeps : EmitContext.KeepsAccessors ⟨t, c, {}⟩ left := by
    have hsites : sites left = [(false, .defined ['K']), (false, .referenced ['v']),
        (true, .referenced ['r', 'g']), (false, .referenced ['K'])] := by
      simp only [left]
      cbv
    rw [EmitContext.KeepsAccessors, hsites]
    decide
  exact (hround hread).mpr ⟨hlive, hkeeps⟩

set_option maxRecDepth 8000 in
/-- A member is named by a letter that reads as an accessor; the next run respells it. -/
theorem not_roundTrips_of_member :
    ∃ m a, (ofSources {} [(['a'], "s.foo;".toList)]).finish = .ok m ∧ m.artifacts = [a] ∧
      a.offline.contents = "s.a;".toList ∧ ¬ RoundTrips ['a'] a := by
  let left : List Token := [.lexeme ['s'] 1 .identifier, .lexeme ['.'] 1 .operator,
    .lexeme ['f', 'o', 'o'] 1 .identifier, .lexeme [';'] 1 .operator]
  let left' : List Token := [.lexeme ['s'] 1 .identifier, .lexeme ['.'] 1 .operator,
    .lexeme ['a'] 1 .identifier, .lexeme [';'] 1 .operator]
  let c : Catalog := ⟨[⟨['s'], 1, 1⟩, ⟨['f', 'o', 'o'], 1, 1⟩], []⟩
  let c' : Catalog := ⟨[⟨['s'], 1, 1⟩, ⟨['w'], 1, 1⟩], []⟩
  let t : RenameTable := ⟨[(['s'], ['s']), (['f', 'o', 'o'], ['a'])]⟩
  let t' : RenameTable := ⟨[(['s'], ['s']), (['w'], ['w'])]⟩
  have hsettled : (ofSources {} [(['a'], "s.foo;".toList)]).settled = ([⟨['a'], left⟩], c) := by
    simp only [left, c]
    cbv
  have hsettled' : (ofSources {} [(['a'], "s.a;".toList)]).settled = ([⟨['a'], left'⟩], c') := by
    simp only [left', c']
    cbv
  have ht : RenameTable.allocate c false = .ok t := by
    simp only [c, t]
    cbv
  have ht' : RenameTable.allocate c' false = .ok t' := by
    simp only [c', t']
    cbv
  have htext : Shader.emit ⟨['a'], left⟩ ⟨t, c, {}⟩ true = .ok ("s.a;".toList, false) := by
    simp only [left, t, c]
    cbv
  have htext' : Shader.emit ⟨['a'], left'⟩ ⟨t', c', {}⟩ true = .ok ("s.w;".toList, false) := by
    simp only [left', t', c']
    cbv
  obtain ⟨m, a, hm, -, ha, newline, hemit⟩ :=
    (sound_ofSources {} _).finish_singleton (options_ofSources _ _) hsettled ht
  obtain ⟨m', a', hm', -, ha', newline', hemit'⟩ :=
    (sound_ofSources {} _).finish_singleton (options_ofSources _ _) hsettled' ht'
  obtain ⟨hoffline, -⟩ := Prod.mk.inj (Except.ok.inj (hemit.symm.trans htext))
  obtain ⟨hoffline', -⟩ := Prod.mk.inj (Except.ok.inj (hemit'.symm.trans htext'))
  refine ⟨m, a, hm, ha, hoffline, ?_⟩
  rintro ⟨m₂, a₂, hm₂, ha₂, hsame, -⟩
  rw [hoffline] at hm₂ hsame
  obtain rfl := Except.ok.inj (hm'.symm.trans hm₂)
  obtain rfl := List.singleton_inj.mp (ha'.symm.trans ha₂)
  rw [hoffline'] at hsame
  exact absurd hsame (by decide)

/-- Without preprocessor lines the text is always read back, and only names that read as accessors
are in the way. -/
theorem roundTrips_iff_keepsAccessors (h : (lex .reject source).outcome = .ok tokens)
    (hs : '#' ∉ source) (hsigil : '@' ∉ source ∧ '$' ∉ source) (hclosed : ClosesComments tokens)
    (hints : KeepsIntsFromPoints tokens)
    (hdefined : ∀ line, .lexeme Form.definedWord line .identifier ∉ tokens) {m : MinifiedBatch}
    (hm : (ofSources {} [(file, source)]).finish = .ok m) :
    ∃ a, m.artifacts = [a] ∧ (RoundTrips file a ↔
      KeepsAccessors ⟨m.names, (ofSources {} [(file, source)]).settled.2, {}⟩
        (Token.strip keepAll tokens)) := by
  have hlex : (lex .pass source).outcome = .ok tokens := lexFrom_pass_of_reject h
  have hwords := isWord_of_mem_mentioned hlex hsigil
  obtain ⟨dead, a, hsettled, ha, ht, hrender, hemit⟩ := finish_of_words hlex hwords hm
  have hnone : definedNames tokens = [] := definedNames_of_shaped (shaped_of_lexFrom h hs)
  have hstrip : Token.strip dead tokens = Token.strip keepAll tokens :=
    strip_congr fun x hx => absurd (hnone ▸ hx) List.not_mem_nil
  rw [hstrip] at hsettled ht hrender hemit
  have hleft := isWord_of_mem_mentioned_strip hwords keepAll
  have hswitches := switches_of_words fun p hp => hleft _ (name_mem_mentioned false p hp)
  obtain ⟨newline, htext⟩ := Artifacts.emit_of_render hrender
  have hread := readsBack_of_lexFrom h hs hclosed hints
    (fun x hx name hn => EmitContext.isWord_of_spelling ht {} hx hn)
    (fun x line hx followsPoint => respell_ne_definedWord ht hswitches
      (hwords x (List.mem_filterMap.mpr
        ⟨_, mem_deep_of_mem_withParts hx (self_mem_withParts _), rfl⟩))
      (fun he => hdefined line (he ▸ hx)) true followsPoint)
    (Shader.emit_eq_ok.mp htext).1
  have hlive : AllLive (Catalog.empty.replay (occurrences (Token.strip keepAll tokens)))
      [⟨file, Token.strip keepAll tokens⟩] := by
    intro s hs x hx
    obtain rfl := List.mem_singleton.mp hs
    rw [definedNames_strip_keepAll, hnone] at hx
    cases hx
  refine ⟨a, ha, ?_⟩
  rw [hsettled, roundTrips_iff_of_readsBack ht hleft (isComment_of_mem_strip keepAll tokens) hemit
    hrender hread, and_iff_right hlive]

end Batch

end ShaderPress
