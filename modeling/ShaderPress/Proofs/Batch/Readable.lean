import Mathlib
import ShaderPress.Proofs.Batch.Single
import ShaderPress.Proofs.Shader.Readable

/-! # Human-readable output of one file

A human-readable batch keeps every word.  One file without sigils, with its directives in their
plain spelling and its accessors in `xyzw`, is always written, in one code for both sources.  That
code is the source with nothing left out, and the source itself exactly if no stream of it has
neighbours between which the writer puts something.
-/
namespace ShaderPress

/-- A spelling that changes no identifier leaves a layout as it stands. -/
theorem Layout.spelled_eq_verbatim {spell : Ident → List Char} {ps : List Piece}
    (h : ∀ x ∈ names ps, spell x = x) : spelled spell ps = verbatim ps := by
  induction ps with
  | nil => rfl
  | cons p ps ih =>
    cases p with
    | fixed text => exact congrArg (text ++ ·) (ih h)
    | name x =>
      rw [names_name, List.forall_mem_cons] at h
      rw [verbatim_name, ← ih h.2, ← h.1]
      exact congrArg (· ++ _) (congrArg spell h.1)

namespace Batch
open Ident Layout Pattern Token
variable {options : MinifyOptions} {source : List Char} {tokens : List Token}

theorem isWord_of_mem_mentioned_of_lex {policy : UnknownPolicy}
    (h : (lex policy source).outcome = .ok tokens) (hsigil : '@' ∉ source ∧ '$' ∉ source) :
    ∀ x ∈ mentioned tokens, IsWord x := by
  cases policy with
  | pass => exact isWord_of_mem_mentioned h hsigil
  | reject => exact isWord_of_mem_mentioned (lexFrom_pass_of_reject h) hsigil

/-- The human-readable table of words changes none of them. -/
theorem nameOf_of_humanReadable {c : Catalog} {t : RenameTable}
    (ht : RenameTable.allocate c true = .ok t) (options : MinifyOptions) (preserve : Bool) {x : Ident}
    (hx : x ∈ c.names) (hword : IsWord x) : EmitContext.nameOf ⟨t, c, options⟩ preserve x = x := by
  rw [EmitContext.nameOf_eq_ite]
  split
  · exact stripSigil_of_isWord hword
  · rw [RenameTable.nameOf, RenameTable.get?_of_allocate_true ht hx, Option.getD_some,
      literal_of_isWord hword]

/-- A human-readable batch emits a shader of words as its layout stands. -/
theorem Sound.emit_humanReadable {b : Batch} {m : MinifiedBatch} (hsound : Sound b)
    (hb : b.options.humanReadable = true) (hm : b.finish = .ok m) {s : Shader} (hs : s ∈ b.shaders)
    (hwords : ∀ x ∈ mentioned s.tokens, IsWord x) (preserve : Bool) :
    s.emit ⟨m.names, b.catalog, b.options⟩ preserve =
      .ok (verbatim (layout true s.tokens).1, (layout true s.tokens).2) := by
  have hsettled : b.settled = (b.shaders, b.catalog) := by rw [settled, if_pos hb]
  have hallocated := (finished_of_finish hm).allocated
  obtain ⟨text, newline, he⟩ := hsound.emit_isOk hallocated (by rwa [hsettled]) preserve
  rw [hsettled] at he
  rw [hsettled, hb] at hallocated
  have hname : ∀ x ∈ names (layout true s.tokens).1,
      EmitContext.nameOf ⟨m.names, b.catalog, b.options⟩ preserve x = x := by
    intro x hx
    have hmentioned : x ∈ mentioned s.tokens := (names_layout_sublist s.tokens).subset hx
    exact nameOf_of_humanReadable hallocated b.options preserve (hsound.known s hs hmentioned)
      (hwords x hmentioned)
  obtain ⟨hspell, hnewline⟩ := Shader.emit_eq_ok.mp he
  rw [hb] at hspell hnewline
  rw [he, EmitContext.eq_spelled_of_spell hspell, spelled_eq_verbatim hname, ← hnewline]

/-- A source of words is written as its layout stands, in both sources alike. -/
theorem exists_finish_humanReadable (hh : options.humanReadable = true) (file : List Char)
    (h : (lex options.unknown source).outcome = .ok tokens)
    (hsigil : '@' ∉ source ∧ '$' ∉ source) :
    let s : Shader := ⟨file, tokens⟩
    let written := layout true tokens
    ∃ m a c, (ofSources options [(file, source)]).finish = .ok m ∧ m.artifacts = [a] ∧
      (ofSources options [(file, source)]).settled = ([s], c) ∧
      (∀ preserve, s.emit ⟨m.names, c, options⟩ preserve = .ok (verbatim written.1, written.2)) ∧
      a.embedded.contents = s.embeddedHead options ++ verbatim written.1 ++
        Shader.embeddedTail options written.2 ∧
      a.offline.contents = verbatim written.1 := by
  intro s written
  have hsound := sound_ofSources options [(file, source)]
  have hoptions := options_ofSources options [(file, source)]
  have hshaders : (ofSources options [(file, source)]).shaders = [s] :=
    shaders_ofSources_singleton h
  generalize ofSources options [(file, source)] = b at hsound hoptions hshaders ⊢
  have hb : b.options.humanReadable = true := by rw [hoptions, hh]
  have hsettled : b.settled = ([s], b.catalog) := by rw [settled, if_pos hb, hshaders]
  obtain ⟨m, hm⟩ := hsound.finish_isOk (t := ⟨_⟩) (by rw [hb]; rfl)
  have hemit := hsound.emit_humanReadable hb hm (hshaders ▸ List.mem_singleton_self s)
    (isWord_of_mem_mentioned_of_lex h hsigil)
  have hrendered := (finished_of_finish hm).rendered
  rw [hoptions] at hemit
  rw [hsettled, hoptions] at hrendered
  obtain ⟨artifacts, table, exports, switches⟩ := m
  cases hrendered with
  | @cons _ a _ _ ha rest =>
  cases rest
  obtain ⟨code, newline, hcode, hembedded⟩ := Artifacts.embedded_of_render ha
  obtain ⟨newline', hoffline⟩ := Artifacts.emit_of_render ha
  obtain ⟨rfl, rfl⟩ := Prod.mk.inj (Except.ok.inj ((hemit false).symm.trans hcode))
  obtain ⟨htext, -⟩ := Prod.mk.inj (Except.ok.inj ((hemit true).symm.trans hoffline))
  exact ⟨_, a, b.catalog, hm, rfl, hsettled, hemit, hembedded, htext.symm⟩

/-- Human-readable output of a source in plain spelling holds all of it, and is the source exactly
if every directive in it stands behind a line end and no two words stand side by side. -/
theorem finish_humanReadable_iff (hh : options.humanReadable = true) (file : List Char)
    (h : (lex options.unknown source).outcome = .ok tokens)
    (hsigil : '@' ∉ source ∧ '$' ∉ source) (haccessors : accessors tokens = [])
    (hcanonical : ∀ t ∈ deep tokens, t.IsCanonical) :
    let s : Shader := ⟨file, tokens⟩
    ∃ m a c code newline, (ofSources options [(file, source)]).finish = .ok m ∧ m.artifacts = [a] ∧
      (ofSources options [(file, source)]).settled = ([s], c) ∧
      (∀ preserve, s.emit ⟨m.names, c, options⟩ preserve = .ok (code, newline)) ∧
      a.embedded.contents = s.embeddedHead options ++ code ++ Shader.embeddedTail options newline ∧
      a.offline.contents = code ∧ source.Sublist code ∧
      (code = source ↔ ∀ stream ∈ streams tokens, KeepsLayout stream) := by
  intro s
  obtain ⟨m, a, c, hm, ha, hsettled, hemit, hembedded, hoffline⟩ :=
    exists_finish_humanReadable hh file h hsigil
  obtain ⟨hsource, hcomposed⟩ := lex_lossless h
  have hinside : ∀ stream ∈ streams tokens, accessorsIn stream = [] :=
    List.flatMap_eq_nil_iff.mp haccessors
  have hplain := isPlain_of_deep hcanonical (fun t ht => (hcomposed t ht).2) hinside
  have hcopies := copies_layout (fun t ht => isCopied_of_isPlain t (hplain t ht))
    (hinside tokens (self_mem_streams tokens))
  rw [hsource] at hcopies
  refine ⟨m, a, c, _, _, hm, ha, hsettled, hemit, hembedded, hoffline, hcopies.sublist, ?_⟩
  rw [hcopies.eq_iff]
  exact forall₂_congr fun stream hs => undivided_start_iff (endsLines_of_lexFrom h stream hs)

theorem finish_humanReadable_of_macro :
    let source := "#define B 1. // c\na\n".toList
    ∃ m a, (ofSources { humanReadable := true } [(['f'], source)]).finish = .ok m ∧
      m.artifacts = [a] ∧ a.offline.contents = source ∧
      ∃ newline, a.embedded.contents = Shader.embeddedHead ⟨['f'], []⟩ {} ++ source ++
        Shader.embeddedTail {} newline := by
  intro source
  let body : List Token := [.lexeme [' '] 1 .whitespace, .lexeme ['1', '.'] 1 .floatLiteral,
    .lexeme [' '] 1 .whitespace]
  let tokens : List Token := [
    .define ['#', 'd', 'e', 'f', 'i', 'n', 'e', ' ', 'B', ' ', '1', '.', ' '] 1 ['B'] none (some body),
    .lexeme ['/', '/', ' ', 'c'] 1 .lineComment, .lexeme ['\n'] 1 .whitespace,
    .lexeme ['a'] 2 .identifier, .lexeme ['\n'] 2 .whitespace]
  have hlex : (lex .pass source).outcome = .ok tokens := by
    simp only [source, tokens, body]
    cbv
  obtain ⟨m, a, c, code, newline, hm, ha, -, -, hembedded, hoffline, -, hiff⟩ :=
    @finish_humanReadable_iff { humanReadable := true } source tokens rfl ['f'] hlex (by decide)
      (by decide) (by decide)
  obtain rfl : code = source := hiff.mpr (by decide)
  exact ⟨m, a, hm, ha, hoffline, newline, hembedded⟩

/-- A line end is put between the blanks at the start of a line and a directive behind them. -/
theorem not_finish_humanReadable_of_indented :
    let source := "  #ifdef B\n".toList
    let name := ['B']
    let tokens : List Token := [.lexeme [' ', ' '] 1 .whitespace,
      .conditional ['#', 'i', 'f', 'd', 'e', 'f', ' ', 'B'] 1 .ifdef name,
      .lexeme ['\n'] 1 .whitespace]
    (lex .pass source).outcome = .ok tokens ∧ ('@' ∉ source ∧ '$' ∉ source) ∧
      accessors tokens = [] ∧ (∀ t ∈ deep tokens, t.IsCanonical) ∧
      ∃ m a, (ofSources { humanReadable := true } [(['f'], source)]).finish = .ok m ∧
        m.artifacts = [a] ∧ a.offline.contents = "  \n#ifdef B\n".toList ∧
        a.offline.contents ≠ source := by
  intro source name tokens
  have hlex : (lex .pass source).outcome = .ok tokens := by
    simp only [source, tokens, name]
    cbv
  obtain ⟨m, a, c, hm, ha, -, -, -, hoffline⟩ :=
    @exists_finish_humanReadable { humanReadable := true } source tokens rfl ['f'] hlex (by decide)
  have hcode : verbatim (layout true tokens).1 = "  \n#ifdef B\n".toList := by decide
  rw [hcode] at hoffline
  refine ⟨hlex, by decide, by decide, by decide, m, a, hm, ha, hoffline, ?_⟩
  rw [hoffline]
  decide

end Batch

end ShaderPress
