import ShaderPress.Proofs.Outcome
import ShaderPress.Proofs.Rename.Fixpoint
import ShaderPress.Proofs.Shader.Relexing

/-! # What the artifacts of a shader hold

An export header has one line for each export.  The embedded and the offline source hold the
same layout under two spellings of its identifiers, and the embedded one puts a head and a
tail around it that the options and the file name determine.
-/
namespace ShaderPress

/-- The text of a piece under a spelling of identifiers. -/
def Piece.text (spell : Ident → List Char) : Piece → List Char
  | fixed text => text
  | name x => spell x

/-- The text of a layout under a spelling of its identifiers. -/
def Layout.spelled (spell : Ident → List Char) (pieces : List Piece) : List Char :=
  pieces.flatMap (Piece.text spell)

namespace EmitContext
variable {cx : EmitContext} {preserve : Bool} {text : List Char}

/-- The line of an export header that tells the name of an export. -/
def exportLine (exportPrefix : List Char) (x : Ident) (name : List Char) : List Char :=
  "#define ".toList ++ exportPrefix ++ Ident.stripSigil x ++ " \"".toList ++ name ++ "\"\n".toList

/-- The text of an export header: one line for each of some exports. -/
def exportText (exportPrefix : List Char) (t : RenameTable) (exports : List Ident) : List Char :=
  pragmaOnce ++ exports.flatMap fun x => exportLine exportPrefix x (t.nameOf x)

theorem nameOf_eq_ite (cx : EmitContext) (preserve : Bool) (x : Ident) :
    cx.nameOf preserve x =
      if preserve && cx.catalog.isSwitch x then Ident.stripSigil x else cx.names.nameOf x := by
  cases hs : preserve && cx.catalog.isSwitch x with
  | true => rw [nameOf, spelling, hs, if_pos rfl, if_pos rfl]
  | false =>
    rw [nameOf, spelling, hs, if_neg Bool.false_ne_true, if_neg Bool.false_ne_true, outputName,
      RenameTable.nameOf]
    cases cx.names.get? x <;> rfl

theorem nameOf_false (cx : EmitContext) : cx.nameOf false = cx.names.nameOf := by
  funext x
  rw [nameOf_eq_ite, Bool.false_and, if_neg Bool.false_ne_true]

theorem eq_of_outputName {x : Ident} {name : List Char} (h : cx.outputName x = .ok name) :
    name = cx.names.nameOf x := by
  rw [outputName] at h
  rw [RenameTable.nameOf]
  cases hn : cx.names.get? x with
  | none =>
    rw [hn] at h
    cases h
  | some output =>
    rw [hn] at h
    cases h
    rfl

theorem exportLines_cons (x : Ident) (xs : List Ident) : cx.exportLines (x :: xs) = (do
    let name ← cx.outputName x
    let rest ← cx.exportLines xs
    pure (exportLine cx.options.exportPrefix x name ++ rest)) := by
  rw [exportLines]
  rfl

theorem eq_of_exportLines {xs : List Ident} (h : cx.exportLines xs = .ok text) :
    text = xs.flatMap fun x => exportLine cx.options.exportPrefix x (cx.names.nameOf x) := by
  induction xs generalizing text with
  | nil =>
    cases h
    rfl
  | cons x xs ih =>
    rw [exportLines_cons] at h
    obtain ⟨name, hn, h⟩ := exists_of_bind_eq_ok h
    obtain ⟨rest, hr, h⟩ := exists_of_bind_eq_ok h
    rw [List.flatMap_cons, ← ih hr, ← eq_of_outputName hn]
    exact (Except.ok.inj h).symm

theorem eq_spelled_of_spell {ps : List Piece} (h : cx.spell preserve ps = .ok text) :
    text = Layout.spelled (cx.nameOf preserve) ps := by
  induction ps generalizing text with
  | nil =>
    cases h
    rfl
  | cons p ps ih =>
    obtain ⟨own, rest, hown, hrest, rfl⟩ := spell_cons_eq_ok.mp h
    have htext : own = p.text (cx.nameOf preserve) := by
      cases p with
      | fixed text =>
        cases hown
        rfl
      | name x => exact (nameOf_eq hown).symm
    rw [Layout.spelled, List.flatMap_cons, ← htext, ih hrest, Layout.spelled]

end EmitContext

namespace Shader

/-- What stands before the code in an embedded source. -/
def embeddedHead (s : Shader) (options : MinifyOptions) : List Char :=
  pragmaOnce ++ "#include \"".toList ++ s.exportsName ++ "\"\n\n".toList
    ++ options.namespaces.flatMap openNamespace
    ++ "const char ".toList ++ s.stem ++ "[] = R\"===(".toList

/-- What stands behind the code in an embedded source. -/
def embeddedTail (options : MinifyOptions) (newline : Bool) : List Char :=
  (if newline then [] else ['\n']) ++ (")===\";\n".toList
    ++ ['\n'].intercalate (options.namespaces.reverse.map closeNamespace))

theorem embeddedSource_eq_ok {s : Shader} {cx : EmitContext} {contents : List Char}
    (h : s.embeddedSource cx = .ok contents) : ∃ code newline,
      s.emit cx false = .ok (code, newline) ∧
        contents = s.embeddedHead cx.options ++ code ++ embeddedTail cx.options newline := by
  obtain ⟨⟨code, newline⟩, he, h⟩ := exists_of_bind_eq_ok h
  cases h
  refine ⟨code, newline, he, ?_⟩
  simp only [embeddedHead, embeddedTail, List.append_assoc]

end Shader

namespace Artifacts
variable {cx : EmitContext} {s : Shader} {a : Artifacts}

theorem exists_of_render (h : render cx s = .ok a) : ∃ header embedded offline,
    s.exportsHeader cx = .ok header ∧ s.embeddedSource cx = .ok embedded ∧
      s.offlineSource cx = .ok offline ∧
      a = ⟨s.name, ⟨s.exportsName, header⟩, ⟨s.embeddedName, embedded⟩, ⟨s.offlineName, offline⟩⟩ := by
  obtain ⟨header, hheader, h⟩ := exists_of_bind_eq_ok h
  obtain ⟨embedded, hembedded, h⟩ := exists_of_bind_eq_ok h
  obtain ⟨offline, hoffline, h⟩ := exists_of_bind_eq_ok h
  exact ⟨header, embedded, offline, hheader, hembedded, hoffline, (Except.ok.inj h).symm⟩

theorem names_of_render (h : render cx s = .ok a) :
    a.exportsHeader.name = s.exportsName ∧ a.embedded.name = s.embeddedName ∧
      a.offline.name = s.offlineName := by
  obtain ⟨header, embedded, offline, -, -, -, rfl⟩ := exists_of_render h
  exact ⟨rfl, rfl, rfl⟩

/-- An embedded source is the emitted code between a head and a tail. -/
theorem embedded_of_render (h : render cx s = .ok a) : ∃ code newline,
    s.emit cx false = .ok (code, newline) ∧ a.embedded.contents =
      s.embeddedHead cx.options ++ code ++ Shader.embeddedTail cx.options newline := by
  obtain ⟨header, embedded, offline, -, hembedded, -, rfl⟩ := exists_of_render h
  exact Shader.embeddedSource_eq_ok hembedded

/-- The files of a shader are spelled from the exports and from one layout. -/
theorem contents_of_render (h : render cx s = .ok a) :
    let written := layout cx.options.humanReadable s.tokens
    a.shader = s.name ∧
    a.exportsHeader.contents =
      EmitContext.exportText cx.options.exportPrefix cx.names cx.catalog.exports ∧
    a.embedded.contents = s.embeddedHead cx.options ++
      Layout.spelled (cx.nameOf false) written.1 ++
      Shader.embeddedTail cx.options written.2 ∧
    a.offline.contents = Layout.spelled (cx.nameOf true) written.1 := by
  obtain ⟨header, embedded, offline, hheader, hembedded, hoffline, rfl⟩ := exists_of_render h
  refine ⟨rfl, ?_, ?_, ?_⟩
  · obtain ⟨lines, hl, h⟩ := exists_of_bind_eq_ok hheader
    cases h
    rw [EmitContext.eq_of_exportLines hl, EmitContext.exportText]
  · obtain ⟨code, newline, he, rfl⟩ := Shader.embeddedSource_eq_ok hembedded
    obtain ⟨hcode, rfl⟩ := Shader.emit_eq_ok.mp he
    rw [EmitContext.eq_spelled_of_spell hcode]
  · obtain ⟨⟨code, newline⟩, he, h⟩ := exists_of_bind_eq_ok hoffline
    cases h
    exact EmitContext.eq_spelled_of_spell (Shader.emit_eq_ok.mp he).1

end Artifacts

end ShaderPress
