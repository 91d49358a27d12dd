import Mathlib
import ShaderPress.Proofs.Feature.Emission
import ShaderPress.Proofs.Feature.Resolved
import ShaderPress.Proofs.Ident.Words

/-! # Macros of the blocks

Read line by line, a source defines and undefines macros and includes files under those defined
there.  A block undefines in another order what it defines, but it undefines all of it: begun
without macros it ends without any, and its files see the macros of its own variant alone.
-/
namespace ShaderPress

/-- What a line tells a preprocessor. -/
inductive MacroLine where
  | define (name : List Char)
  | undef (name : List Char)
  | includeFile (file : List Char)
deriving DecidableEq, Repr

namespace MacroLine

/-- The word behind a mark, up to a character that ends it. -/
def wordBehind? (mark : List Char) (stop : Char) (line : List Char) : Option (List Char) :=
  (mark.isPrefixOf? line).map (·.takeWhile (· != stop))

def read? (line : List Char) : Option MacroLine :=
  (wordBehind? "#define ".toList ' ' line).map define
    <|> (wordBehind? "#undef ".toList ' ' line).map undef
    <|> (wordBehind? "#include \"".toList '"' line).map includeFile

section Words
variable {mark name : List Char} {stop : Char}

theorem wordBehind?_append (h : stop ∉ name) {rest : List Char}
    (hrest : rest.takeWhile (· != stop) = []) :
    wordBehind? mark stop (mark ++ (name ++ rest)) = some name := by
  have hname : ∀ c ∈ name, (c != stop) = true := fun c hc =>
    bne_iff_ne.mpr (ne_of_mem_of_not_mem hc h)
  rw [wordBehind?, List.isPrefixOf?_eq_some_iff_append_eq.mpr rfl, Option.map_some,
    Pattern.takeWhile_append_of_all hname hrest]

theorem wordBehind?_of_not_mem (h : stop ∉ name) :
    wordBehind? mark stop (mark ++ name) = some name := by
  have hword : wordBehind? mark stop (mark ++ (name ++ [])) = some name :=
    wordBehind?_append h List.takeWhile_nil
  rwa [List.append_nil] at hword

end Words

end MacroLine

/-- The files included so far, each with the macros that were defined there, and the macros that
are defined. -/
structure MacroReading where
  included : List (List Char × Finset (List Char))
  macros : Finset (List Char)
deriving DecidableEq

namespace MacroReading
open MacroLine

def step (r : MacroReading) : MacroLine → MacroReading
  | define name => { r with macros := insert name r.macros }
  | undef name => { r with macros := r.macros.erase name }
  | includeFile file => { r with included := r.included ++ [(file, r.macros)] }

def run (r : MacroReading) (lines : List MacroLine) : MacroReading := lines.foldl step r

/-- Reads a text from no macros on. -/
def ofText (text : List Char) : MacroReading :=
  run ⟨[], ∅⟩ ((text.splitOn '\n').filterMap read?)

variable (r : MacroReading)

theorem run_append (lines more : List MacroLine) :
    r.run (lines ++ more) = (r.run lines).run more :=
  List.foldl_append

theorem run_define (names : List (List Char)) :
    r.run (names.map define) = ⟨r.included, r.macros ∪ names.toFinset⟩ := by
  induction names generalizing r with
  | nil => simp [run]
  | cons name names ih =>
    rw [List.map_cons, run, List.foldl_cons, ← run, ih, List.toFinset_cons, Finset.union_insert,
      ← Finset.insert_union]
    rfl

theorem run_undef (names : List (List Char)) :
    r.run (names.map undef) = ⟨r.included, r.macros \ names.toFinset⟩ := by
  induction names generalizing r with
  | nil => simp [run]
  | cons name names ih =>
    rw [List.map_cons, run, List.foldl_cons, ← run, ih, List.toFinset_cons,
      Finset.sdiff_insert, ← Finset.erase_sdiff_comm]
    rfl

theorem run_includeFile (files : List (List Char)) :
    r.run (files.map includeFile) = ⟨r.included ++ files.map (·, r.macros), r.macros⟩ := by
  induction files generalizing r with
  | nil => simp [run]
  | cons file files ih =>
    rw [List.map_cons, run, List.foldl_cons, ← run, ih]
    simp [step]

/-- What defines some macros, includes files and undefines the macros again leaves nothing
behind. -/
theorem run_balanced {defined files undefined : List (List Char)} (h : defined ⊆ undefined)
    (hr : r.macros = ∅) :
    r.run (defined.map define ++ files.map includeFile ++ undefined.map undef) =
      ⟨r.included ++ files.map (·, defined.toFinset), ∅⟩ := by
  have hsub : defined.toFinset ⊆ undefined.toFinset := fun name hname =>
    List.mem_toFinset.mpr (h (List.mem_toFinset.mp hname))
  rw [run_append, run_append, run_define, run_includeFile, run_undef, hr, Finset.empty_union,
    Finset.sdiff_eq_empty_iff_subset.mpr hsub]

end MacroReading

namespace BlockLine

def macroLine? : BlockLine → Option MacroLine
  | defineMacro name | defineOne name => some (.define name)
  | undefMacro name => some (.undef name)
  | includeFile name => some (.includeFile name)
  | _ => none

/-- The line is one line, and the word in it ends where it should. -/
def Legible : BlockLine → Prop
  | defineMacro name | defineOne name | undefMacro name => ' ' ∉ name ∧ '\n' ∉ name
  | openNamespace name => '\n' ∉ name
  | includeFile name => '"' ∉ name ∧ '\n' ∉ name
  | _ => True

variable {l : BlockLine} {lines : List BlockLine}

theorem newline_not_mem_text (h : l.Legible) : '\n' ∉ l.text := by
  have hdefine : '\n' ∉ "#define ".toList := by decide
  have hundef : '\n' ∉ "#undef ".toList := by decide
  have hnamespace : '\n' ∉ "namespace ".toList := by decide
  have hinclude : '\n' ∉ "#include \"".toList := by decide
  cases l with
  | defineMacro name => exact List.not_mem_append hdefine h.2
  | defineOne name => exact List.not_mem_append (List.not_mem_append hdefine h.2) (by decide)
  | undefMacro name => exact List.not_mem_append hundef h.2
  | openNamespace name => exact List.not_mem_append hnamespace h
  | openBrace => decide
  | includeFile name => exact List.not_mem_append (List.not_mem_append hinclude h.2) (by decide)
  | closeBrace => decide
  | blank => decide

theorem read?_text (h : l.Legible) : MacroLine.read? l.text = l.macroLine? := by
  cases l with
  | defineMacro name =>
    change MacroLine.read? ("#define ".toList ++ name) = _
    rw [MacroLine.read?, MacroLine.wordBehind?_of_not_mem h.1]
    rfl
  | defineOne name =>
    change MacroLine.read? ("#define ".toList ++ name ++ " 1".toList) = _
    rw [MacroLine.read?, List.append_assoc, MacroLine.wordBehind?_append h.1 (by decide)]
    rfl
  | undefMacro name =>
    change MacroLine.read? ("#undef ".toList ++ name) = _
    rw [MacroLine.read?, MacroLine.wordBehind?_of_not_mem h.1]
    rfl
  | includeFile name =>
    change MacroLine.read? ("#include \"".toList ++ name ++ ['"']) = _
    rw [MacroLine.read?, List.append_assoc, MacroLine.wordBehind?_append h.1 (by decide)]
    rfl
  | openNamespace name => rfl
  | openBrace => rfl
  | closeBrace => rfl
  | blank => rfl

theorem splitOn_render (h : ∀ l ∈ lines, '\n' ∉ l.text) :
    (render lines).splitOn '\n' = lines.map text ++ [[]] := by
  induction lines with
  | nil => rfl
  | cons l lines ih =>
    rw [List.forall_mem_cons] at h
    rw [render, List.flatMap_cons, ← render, List.append_assoc, List.singleton_append,
      List.splitOn_append_cons_self, List.splitOn_eq_singleton h.1, ih h.2]
    rfl

end BlockLine

namespace MacroReading

theorem ofText_render {lines : List BlockLine} (h : ∀ l ∈ lines, l.Legible) :
    ofText (BlockLine.render lines) = run ⟨[], ∅⟩ (lines.filterMap BlockLine.macroLine?) := by
  have hread : (lines.map BlockLine.text).filterMap MacroLine.read? =
      lines.filterMap BlockLine.macroLine? := by
    rw [List.filterMap_map]
    exact List.filterMap_congr fun l hl => BlockLine.read?_text (h l hl)
  rw [ofText, BlockLine.splitOn_render fun l hl => BlockLine.newline_not_mem_text (h l hl),
    List.filterMap_append, hread]
  exact congrArg (run _) (List.append_nil _)

/-- The header of a source says nothing about macros. -/
theorem ofText_header_append (text : List Char) :
    ofText (Universe.generatedHeader ++ text) = ofText text := by
  have hheader : Universe.generatedHeader =
      "// Generated by generate_draw_combinations. Do not edit.".toList ++ '\n' :: ['\n'] := rfl
  have hblank : (['\n'] ++ text).splitOn '\n' = [] :: text.splitOn '\n' :=
    List.splitOn_append_cons_self [] text
  rw [ofText, hheader, List.append_assoc, List.cons_append, List.splitOn_append_cons_self,
    List.splitOn_eq_singleton (by decide), List.filterMap_append, hblank]
  rfl

end MacroReading

/-- The files that a manifest names. -/
def Includes.files (i : Includes) : List (List Char) :=
  [i.pathVertex, i.pathFragment, i.atlasFragment, i.imageMeshVertex, i.imageMeshFragment]

theorem Manifest.not_mem_of_isMacroName {name : List Char}
    (h : Manifest.isMacroName name = true) : ' ' ∉ name ∧ '\n' ∉ name := by
  rw [isMacroName, Bool.and_eq_true, Bool.not_eq_true', List.isEmpty_eq_false_iff, beq_iff_eq] at h
  obtain ⟨hne, hword⟩ := h
  have hpart := Ident.isIdentPart_of_mem (Pattern.isWord_word (hword.symm ▸ hne))
  rw [hword] at hpart
  exact ⟨fun hc => Bool.noConfusion (hpart _ hc), fun hc => Bool.noConfusion (hpart _ hc)⟩

/-- The macros that a variant is to be compiled with. -/
def Manifest.macrosOf (m : Manifest) (v : Variant) : Finset (List Char) :=
  {v.stage.marker} ∪ (m.namesIn v.features).toFinset
    ∪ (if v.fill = .clockwise then {"CLOCKWISE_FILL".toList} else ∅)
    ∪ match v.draw with
      | .path => {"DRAW_PATH".toList}
      | .imageMesh => {"DRAW_IMAGE".toList, "DRAW_IMAGE_MESH".toList}

namespace Variant
variable {m : Manifest} {u : Universe}

/-- What a block defines, in the order of its lines. -/
def macros (u : Universe) (v : Variant) : List (List Char) :=
  v.stage.marker :: (u.members v.features).map (·.name) ++ fillMacros v.fill ++ drawMacros v.draw

/-- What a block undefines, in the order of its lines. -/
def dropped (u : Universe) (v : Variant) : List (List Char) :=
  (drawMacros v.draw).reverse ++ (u.members v.features).map (·.name)
    ++ v.stage.marker :: fillMacros v.fill

theorem filterMap_block (u : Universe) (v : Variant) :
    (v.block u).filterMap BlockLine.macroLine? =
      (v.macros u).map .define ++ (v.includedFiles u).map .includeFile
        ++ (v.dropped u).map .undef := by
  simp [block, macros, dropped, BlockLine.macroLine?, List.filterMap_cons, List.filterMap_map,
    Function.comp_def]

theorem macros_subset_dropped (u : Universe) (v : Variant) : v.macros u ⊆ v.dropped u := by
  intro name hname
  simp only [macros, dropped, List.mem_append, List.mem_cons, List.mem_reverse] at hname ⊢
  tauto

theorem toFinset_macros (h : m.resolve = .ok u) (v : Variant) :
    (v.macros u).toFinset = m.macrosOf v := by
  have hnames : ((u.members v.features).map (·.name)).toFinset =
      (m.namesIn v.features).toFinset :=
    List.toFinset_eq_of_perm _ _
      (((Manifest.resolves_of_resolve h).features_perm.filter _).map _)
  have hfill : (fillMacros v.fill).toFinset =
      if v.fill = .clockwise then {"CLOCKWISE_FILL".toList} else ∅ := by
    cases v.fill <;> rfl
  rw [macros, List.toFinset_append, List.toFinset_append, List.toFinset_cons, hnames, hfill,
    Finset.insert_eq, Manifest.macrosOf]
  cases v.draw <;> rfl

theorem includedFiles_subset (u : Universe) (v : Variant) :
    v.includedFiles u ⊆ u.includes.files := by
  cases hd : v.draw with
  | path => cases ha : u.usesAtlasBlit v.features <;> simp [includedFiles, Includes.files, hd, ha]
  | imageMesh => simp [includedFiles, Includes.files, hd]

theorem newline_not_mem_namespaceName (v : Variant) (width : Nat) :
    '\n' ∉ v.namespaceName width := by
  have hletter : v.namespaceLetter ≠ '\n' := by
    unfold namespaceLetter
    split <;> decide
  have hdigit : ∀ i : Nat, (if v.features.contains i then '1' else '0') ≠ '\n' := by
    intro i
    split <;> decide
  simp [namespaceName, FeatureSet.bitmask, hletter.symm, hdigit]

theorem legible_block (h : m.resolve = .ok u)
    (hfiles : ∀ file ∈ m.includes.files, '\n' ∉ file ∧ '"' ∉ file) (v : Variant) :
    ∀ l ∈ v.block u, l.Legible := by
  have hu := Manifest.resolves_of_resolve h
  have hfeatures : ∀ f ∈ u.members v.features, ' ' ∉ f.name ∧ '\n' ∉ f.name := fun f hf =>
    Manifest.not_mem_of_isMacroName (hu.declarable.isMacroName f
      (hu.features_perm.mem_iff.mp (List.mem_of_mem_filter hf)))
  have hfill : ∀ name ∈ fillMacros v.fill, ' ' ∉ name ∧ '\n' ∉ name := by
    cases v.fill <;> decide
  have hdraw : ∀ name ∈ drawMacros v.draw, ' ' ∉ name ∧ '\n' ∉ name := by
    cases v.draw <;> decide
  have hmarker : ' ' ∉ v.stage.marker ∧ '\n' ∉ v.stage.marker := by
    cases v.stage <;> decide
  have hincluded : ∀ file ∈ v.includedFiles u, '"' ∉ file ∧ '\n' ∉ file := fun file hfile =>
    (hfiles file (hu.includes ▸ includedFiles_subset u v hfile)).symm
  simp only [block, List.forall_mem_append, List.forall_mem_cons, List.forall_mem_map,
    List.mem_reverse, List.not_mem_nil, IsEmpty.forall_iff, BlockLine.Legible]
  have hnamespace := newline_not_mem_namespaceName v u.width
  exact ⟨⟨⟨⟨⟨⟨⟨⟨hmarker, hfeatures⟩, hfill⟩, hdraw⟩, hnamespace, trivial, hincluded⟩, trivial,
    hdraw⟩, hfeatures⟩, hmarker, hfill⟩, trivial, fun _ => trivial⟩

/-- A block that begins without macros shows its files those of its variant and leaves none. -/
theorem run_block (h : m.resolve = .ok u) (v : Variant) {r : MacroReading} (hr : r.macros = ∅) :
    r.run ((v.block u).filterMap BlockLine.macroLine?) =
      ⟨r.included ++ (v.includedFiles u).map (·, m.macrosOf v), ∅⟩ := by
  rw [filterMap_block, MacroReading.run_balanced r (macros_subset_dropped u v) hr,
    toFinset_macros h]

theorem run_blocks (h : m.resolve = .ok u) (vs : List Variant) {r : MacroReading}
    (hr : r.macros = ∅) :
    r.run ((vs.flatMap (block u)).filterMap BlockLine.macroLine?) =
      ⟨r.included ++ vs.flatMap fun v => (v.includedFiles u).map (·, m.macrosOf v), ∅⟩ := by
  induction vs generalizing r with
  | nil =>
    rw [List.flatMap_nil, List.flatMap_nil, List.append_nil, ← hr]
    rfl
  | cons v vs ih =>
    rw [List.flatMap_cons, List.filterMap_append, MacroReading.run_append, run_block h v hr, ih rfl,
      List.flatMap_cons, List.append_assoc]

end Variant

namespace Universe
variable {m : Manifest} {u : Universe} {vs : List Variant} {source : List Char}

/-- Read up to the end of any of its blocks, a source that is written has included the files of
each variant so far under the macros of that variant, and no macro is defined. -/
theorem ofText_emitVariants (h : m.resolve = .ok u)
    (hfiles : ∀ file ∈ m.includes.files, '\n' ∉ file ∧ '"' ∉ file)
    (hsource : u.emitVariants vs = .ok source) {before : List Variant} (hbefore : before <+: vs) :
    ∃ text, u.emitVariants before = .ok text ∧ text <+: source ∧
      MacroReading.ofText text =
        ⟨before.flatMap fun v => (v.includedFiles u).map (·, m.macrosOf v), ∅⟩ := by
  obtain ⟨after, rfl⟩ := hbefore
  obtain ⟨hchecks, rfl⟩ := emitVariants_eq_ok_iff.mp hsource
  rw [List.forall_mem_append] at hchecks
  refine ⟨_, emitVariants_of_checks hchecks.1, ?_, ?_⟩
  · rw [List.flatMap_append, BlockLine.render_append, ← List.append_assoc]
    exact List.prefix_append _ _
  · rw [MacroReading.ofText_header_append, MacroReading.ofText_render,
      Variant.run_blocks h before rfl, List.nil_append]
    intro l hl
    obtain ⟨v, -, hl⟩ := List.mem_flatMap.mp hl
    exact Variant.legible_block h hfiles v l hl

/-- Features that are named like markers, over two blocks. -/
theorem ofText_emitVariants_of_markers :
    let m : Manifest := { features := [⟨"DRAW_PATH".toList, 1⟩, ⟨"VERTEX".toList, 0⟩] }
    let vs : List Variant := [
      ⟨.vertex, .path, .legacy, .ofIndices [0, 1]⟩, ⟨.fragment, .path, .clockwise, .ofIndices [0]⟩]
    ∃ u source, m.resolve = .ok u ∧ u.emitVariants vs = .ok source ∧
      MacroReading.ofText source = ⟨[
        ("draw_path.minified.vert".toList, {"VERTEX".toList, "DRAW_PATH".toList}),
        ("draw_raster_order_path.minified.frag".toList, {"VERTEX".toList, "DRAW_PATH".toList}),
        ("draw_path.minified.vert".toList, {"FRAGMENT".toList, "VERTEX".toList,
          "CLOCKWISE_FILL".toList, "DRAW_PATH".toList}),
        ("draw_raster_order_path.minified.frag".toList, {"FRAGMENT".toList, "VERTEX".toList,
          "CLOCKWISE_FILL".toList, "DRAW_PATH".toList})], ∅⟩ := by
  intro m vs
  let u : Universe := {
    features := [⟨"VERTEX".toList, 0⟩, ⟨"DRAW_PATH".toList, 1⟩], declared := .ofIndices [1, 0],
    wholeProgram := .empty, fragmentOnly := .empty, requires := [], nonAtlasCoverage := .empty,
    nonImageMesh := .empty, interiorTriangles := none, atlasBlit := none,
    includes := Includes.standard }
  have h : m.resolve = .ok u := by
    simp only [m, u]
    cbv
  have hfiles : ∀ file ∈ m.includes.files, '\n' ∉ file ∧ '"' ∉ file := by
    decide
  have hchecks : ∀ v ∈ vs, u.check v = .ok () := by
    decide
  have hsource := emitVariants_of_checks hchecks
  obtain ⟨source, hwritten, -, hread⟩ := ofText_emitVariants h hfiles hsource List.prefix_rfl
  refine ⟨u, source, h, hwritten, hread.trans ?_⟩
  decide

end Universe

end ShaderPress
