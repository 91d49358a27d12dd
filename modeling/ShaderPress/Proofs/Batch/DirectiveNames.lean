import Mathlib
import ShaderPress.Proofs.Batch.Switches
import ShaderPress.Proofs.Rename.Words
import ShaderPress.Proofs.Shader.DirectiveName

/-! # The names of directives in a minified batch

The name of a directive is counted and named as any other identifier is.  Where it is one of
the words of the preprocessor it is therefore kept if that word is reserved, and otherwise it
gets a generated name, which is the word itself only by chance.
-/
namespace ShaderPress

/-- The words by which the preprocessor knows its directives, those with a form of their own
apart. -/
def preprocessorWords : List Ident :=
  ["if".toList, "elif".toList, "else".toList, "endif".toList, "undef".toList, "version".toList,
   "extension".toList, "pragma".toList, "line".toList, "error".toList, "include".toList]

theorem isWord_of_mem_preprocessorWords {w : Ident} (hw : w ∈ preprocessorWords) :
    Pattern.IsWord w := by
  have hletters : ∀ w ∈ preprocessorWords, w ≠ [] ∧ w.all Pattern.isIdentStart = true := by decide
  obtain ⟨hne, hall⟩ := hletters w hw
  cases w with
  | nil => exact absurd rfl hne
  | cons c w =>
    rw [List.all_eq_true, List.forall_mem_cons] at hall
    exact ⟨hall.1, fun d hd => Pattern.isIdentPart_of_isIdentStart (hall.2 d hd)⟩

namespace Batch
open Token
variable {b : Batch}

theorem Sound.bounded (h : Sound b) (hb : b.options.humanReadable = false) {s : Shader}
    (hs : s ∈ b.settled.1) : ∀ u ∈ deep s.tokens, u.Bounded := by
  obtain ⟨⟨dead, hd⟩, -⟩ := settled_false hb
  obtain ⟨source, hsource, rfl⟩ := List.mem_map.mp (hd ▸ hs)
  obtain ⟨text, htext⟩ := h.lexed source hsource
  exact fun u hu => ⟨endsWords_of_mem_strip htext dead u hu,
    isComment_of_mem_strip dead source.tokens u hu⟩

theorem isSwitch_of_isWord (hb : b.options.humanReadable = false) {w : Ident}
    (hw : Pattern.IsWord w) : b.settled.2.isSwitch w = false := by
  rw [Catalog.isSwitch, Bool.eq_false_iff]
  intro hmem
  have hexport := ((mem_switches_settled hb).mp (List.contains_iff_mem.mp hmem)).1
  rw [Ident.isExport_of_isWord hw] at hexport
  cases hexport

/-- Every directive that goes by a word of the preprocessor is written, and its name is that word
exactly if the word is reserved or is the name that has been generated for it. -/
theorem emit_directiveName_iff {options : MinifyOptions} (hh : options.humanReadable = false)
    (sources : List (List Char × List Char)) {t : RenameTable}
    (ht : RenameTable.allocate (ofSources options sources).settled.2 false = .ok t) {s : Shader}
    (hs : s ∈ (ofSources options sources).settled.1) (preserve : Bool) :
    ∃ code newline,
      s.emit ⟨t, (ofSources options sources).settled.2, options⟩ preserve = .ok (code, newline) ∧
      ∀ u ∈ deep s.tokens, ∀ w ∈ preprocessorWords, u.directiveName? = some w →
        ∃ name, EmitContext.WritesDirective ⟨t, (ofSources options sources).settled.2, options⟩
            preserve u w name code ∧
          (name = w ↔ Ident.isReserved w = true ∨
            w.length ≤ NameStyle.maxLength ∧ t.get? w = some w) := by
  have h := sound_ofSources options sources
  have ho := options_ofSources options sources
  generalize ofSources options sources = b at h ho ht hs ⊢
  subst ho
  obtain ⟨code, newline, he⟩ := h.emit_isOk (hh ▸ ht) hs preserve
  refine ⟨code, newline, he, ?_⟩
  intro u hu w hw hfirst
  have hword := isWord_of_mem_preprocessorWords hw
  have hx : Ident.canonicalSwizzle? w = none :=
    (by decide : ∀ w ∈ preprocessorWords, Ident.canonicalSwizzle? w = none) w hw
  have htext := (Shader.emit_eq_ok.mp he).1
  rw [show b.options.humanReadable = false from hh] at htext
  obtain ⟨name, hwrites⟩ := EmitContext.writesDirective_of_spell hx
    (fun name => EmitContext.isWord_of_spelling ht b.options (Ident.isName_of_isWord hword))
    (h.bounded hh hs) htext hu hfirst
  have hn : t.get? w = some name := by
    have hname := hwrites.spelling_eq
    rw [EmitContext.spelling, isSwitch_of_isWord hh hword, Bool.and_false,
      if_neg Bool.false_ne_true] at hname
    exact EmitContext.get?_of_outputName hname
  exact ⟨name, hwrites, RenameTable.eq_self_iff ht hword hn⟩

example : preprocessorWords.filter Ident.isReserved =
    ["if".toList, "elif".toList, "else".toList, "endif".toList, "extension".toList,
     "pragma".toList] := by decide

set_option maxRecDepth 8000 in
/-- The end of a condition keeps its name. -/
theorem emit_directiveName_of_endif :
    let b := ofSources {} [(['a'], "#endif\n".toList)]
    let t : RenameTable := ⟨[("endif".toList, "endif".toList)]⟩
    RenameTable.allocate b.settled.2 false = .ok t ∧
      ∃ s ∈ b.settled.1, ∃ u ∈ deep s.tokens, u.directiveName? = some "endif".toList ∧
        ∀ preserve, ∃ code newline,
          s.emit ⟨t, b.settled.2, {}⟩ preserve = .ok (code, newline) ∧
          EmitContext.WritesDirective ⟨t, b.settled.2, {}⟩ preserve u "endif".toList
            "endif".toList code := by
  intro b t
  let close : Token := .directive "#endif".toList 1 (some [.lexeme "endif".toList 1 .identifier])
  have hb : b.settled = ([⟨['a'], [close, .lexeme ['\n'] 1 .whitespace]⟩],
      ⟨[⟨"endif".toList, 1, 1⟩], []⟩) := by
    simp only [b, close]
    cbv
  have ht : RenameTable.allocate b.settled.2 false = .ok t := by
    rw [hb]
    simp only [t]
    cbv
  have hs : ⟨['a'], [close, .lexeme ['\n'] 1 .whitespace]⟩ ∈ b.settled.1 := by
    rw [hb]
    exact List.mem_singleton_self _
  refine ⟨ht, _, hs, close, List.mem_cons_self, rfl, fun preserve => ?_⟩
  obtain ⟨code, newline, he, hnames⟩ := emit_directiveName_iff rfl _ ht hs preserve
  obtain ⟨name, hwrites, hiff⟩ :=
    hnames close List.mem_cons_self "endif".toList (by decide) rfl
  obtain rfl := hiff.mpr (Or.inl (by decide))
  exact ⟨code, newline, he, hwrites⟩

set_option maxRecDepth 8000 in
/-- A version is declared under a generated name. -/
theorem not_emit_directiveName_of_version :
    let b := ofSources {} [(['a'], "#version 300\n".toList)]
    ∃ t, RenameTable.allocate b.settled.2 false = .ok t ∧ ∃ s ∈ b.settled.1,
      s.emit ⟨t, b.settled.2, {}⟩ false = .ok ("#a 300\n".toList, true) ∧
      ∃ u ∈ deep s.tokens, u.directiveName? = some "version".toList ∧
        ¬ EmitContext.WritesDirective ⟨t, b.settled.2, {}⟩ false u "version".toList
          "version".toList "#a 300\n".toList := by
  intro b
  let version : Token := .directive "#version 300".toList 1 (some
    [.lexeme "version".toList 1 .identifier, .lexeme [' '] 1 .whitespace,
      .lexeme "300".toList 1 .intLiteral])
  have hb : b.settled = ([⟨['a'], [version, .lexeme ['\n'] 1 .whitespace]⟩],
      ⟨[⟨"version".toList, 1, 1⟩], []⟩) := by
    simp only [b, version]
    cbv
  rw [hb]
  refine ⟨⟨[("version".toList, ['a'])]⟩, ?_, _, List.mem_singleton_self _, ?_, version,
    List.mem_cons_self, rfl, ?_⟩
  · cbv
  · simp only [version]
    cbv
  · intro hwrites
    have hspelled : EmitContext.spelling ⟨⟨[("version".toList, ['a'])]⟩,
        ⟨[⟨"version".toList, 1, 1⟩], []⟩, {}⟩ false "version".toList = .ok ['a'] := by cbv
    exact absurd (Except.ok.inj (hspelled.symm.trans hwrites.spelling_eq)) (by decide)

end Batch

end ShaderPress
