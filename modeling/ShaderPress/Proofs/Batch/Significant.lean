import Mathlib
import ShaderPress.Proofs.Batch.Contents
import ShaderPress.Proofs.Shader.Significant

/-! # Batches that differ in nothing significant

Sources that are read as the same significant tokens leave the same catalog, are settled alike
and written alike.  So outside human-readable output neither the text of a blank nor that of a
comment reaches a name or an artifact.
-/
namespace ShaderPress

namespace Artifacts

/-- The same contents; under one file name the same files. -/
structure Alike (a a' : Artifacts) : Prop where
  exportsHeader : a.exportsHeader.contents = a'.exportsHeader.contents
  offline : a.offline.contents = a'.offline.contents
  eq_of_shader : a.shader = a'.shader → a = a'

variable {cx : EmitContext} {s s' : Shader} {a a' : Artifacts}

/-- Under one table the artifacts depend on the file name and the layout. -/
theorem render_eq_of_layout (hname : s.name = s'.name)
    (hlayout : layout cx.options.humanReadable s.tokens =
      layout cx.options.humanReadable s'.tokens) : render cx s = render cx s' := by
  simp only [render, Shader.exportsHeader, Shader.embeddedSource, Shader.offlineSource, Shader.emit,
    hlayout, hname, Shader.exportsName, Shader.embeddedName, Shader.offlineName, Shader.stem]

theorem alike_of_layout (ha : render cx s = .ok a) (ha' : render cx s' = .ok a')
    (hlayout : layout cx.options.humanReadable s.tokens =
      layout cx.options.humanReadable s'.tokens) : Alike a a' := by
  obtain ⟨hshader, hheader, -, hoffline⟩ := contents_of_render ha
  obtain ⟨hshader', hheader', -, hoffline'⟩ := contents_of_render ha'
  refine ⟨hheader.trans hheader'.symm, ?_, fun hname => ?_⟩
  · rw [hoffline, hoffline', hlayout]
  · rw [hshader, hshader'] at hname
    rw [render_eq_of_layout hname hlayout, ha'] at ha
    exact (Except.ok.inj ha).symm

theorem eq_of_forall₂_alike {artifacts artifacts' : List Artifacts}
    (h : List.Forall₂ Alike artifacts artifacts')
    (hnames : artifacts.map shader = artifacts'.map shader) : artifacts = artifacts' := by
  induction h with
  | nil => rfl
  | cons ha _ ih =>
    obtain ⟨hname, hrest⟩ := List.cons.inj hnames
    rw [ha.eq_of_shader hname, ih hrest]

theorem forall₂_alike_of_layouts {shaders shaders' : List Shader}
    {artifacts artifacts' : List Artifacts}
    (hr : List.Forall₂ (fun s a => render cx s = .ok a) shaders artifacts)
    (hr' : List.Forall₂ (fun s a => render cx s = .ok a) shaders' artifacts')
    (hl : List.Forall₂ (fun s s' => layout cx.options.humanReadable s.tokens =
      layout cx.options.humanReadable s'.tokens) shaders shaders') :
    List.Forall₂ Alike artifacts artifacts' := by
  induction hl generalizing artifacts artifacts' with
  | nil =>
    cases hr
    cases hr'
    exact .nil
  | cons hlayout _ ih =>
    cases hr with
    | cons ha hr =>
      cases hr' with
      | cons ha' hr' => exact .cons (alike_of_layout ha ha' hlayout) (ih hr hr')

end Artifacts

namespace Batch
open Token
variable {options : MinifyOptions} {b b' : Batch} {sources sources' : List (List Char × List Char)}

/-- Two batches that differ in nothing significant but perhaps in file names. -/
structure Alike (b b' : Batch) : Prop where
  options : b.options = b'.options
  catalog : b.catalog = b'.catalog
  significants : Shader.significants b.shaders = Shader.significants b'.shaders

/-- Two sources that leave the same trail and the same significant tokens, or the same error. -/
def SameReading (policy : UnknownPolicy) (source source' : List Char) : Prop :=
  significantForm <$> lex policy source = significantForm <$> lex policy source'

theorem SameReading.trail {policy : UnknownPolicy} {source source' : List Char}
    (h : SameReading policy source source') :
    (lex policy source).trail = (lex policy source').trail :=
  show (significantForm <$> lex policy source).trail = _ by rw [h]; rfl

theorem SameReading.outcome {policy : UnknownPolicy} {source source' : List Char}
    (h : SameReading policy source source') :
    (lex policy source).outcome.map significantForm =
      (lex policy source').outcome.map significantForm :=
  show (significantForm <$> lex policy source).outcome = _ by rw [h]; rfl

theorem sameReading_of_condensed {policy : UnknownPolicy} {source source' : List Char}
    {tokens tokens' : List Token} (h : (lex policy source).outcome = .ok tokens)
    (h' : (lex policy source').outcome = .ok tokens') (hc : condensed tokens = condensed tokens') :
    SameReading policy source source' := by
  have hs : significantForm tokens = significantForm tokens' := by
    rw [← significantForm_condensed, hc, significantForm_condensed]
  have htrail : (lex policy source).trail = (lex policy source').trail := by
    rw [lex, lex, trail_lexFrom h, trail_lexFrom h', ← noted_significantForm, hs,
      noted_significantForm]
  rw [SameReading, Scan.map_def, Scan.map_def, htrail, h, h', Except.map, Except.map, hs]

theorem Alike.add (h : Alike b b') (name name' : List Char) {source source' : List Char}
    (hread : SameReading b.options.unknown source source') :
    Alike (b.add name source).2 (b'.add name' source').2 := by
  have houtcome := hread.outcome
  rw [add_snd, add_snd, ← h.options, hread.trail, h.catalog]
  refine ⟨rfl, rfl, ?_⟩
  cases hs : (lex b.options.unknown source).outcome with
  | error e =>
    cases hs' : (lex b.options.unknown source').outcome with
    | error e' => exact h.significants
    | ok tokens' =>
      rw [hs, hs'] at houtcome
      cases houtcome
  | ok tokens =>
    cases hs' : (lex b.options.unknown source').outcome with
    | error e' =>
      rw [hs, hs'] at houtcome
      cases houtcome
    | ok tokens' =>
      rw [hs, hs'] at houtcome
      have hlast : significantForm tokens = significantForm tokens' := Except.ok.inj houtcome
      have hbefore := h.significants
      simp only [Shader.significants] at hbefore ⊢
      rw [List.map_append, List.map_append, hbefore, List.map_singleton, List.map_singleton, hlast]

theorem alike_ofSources
    (h : List.Forall₂ (fun s s' => SameReading options.unknown s.2 s'.2) sources sources') :
    Alike (ofSources options sources) (ofSources options sources') := by
  have run : ∀ {b b' : Batch}, b.options = options → Alike b b' →
      Alike (sources.foldl (fun b s => (b.add s.1 s.2).2) b)
        (sources'.foldl (fun b s => (b.add s.1 s.2).2) b') := by
    induction h with
    | nil => exact fun _ hb => hb
    | cons hread _ ih =>
      intro b b' ho hb
      exact ih ((options_add b _ _).trans ho) (hb.add _ _ (by rw [ho]; exact hread))
  exact run rfl ⟨rfl, rfl, rfl⟩

/-- The file names of a batch are those of the sources that can be lexed. -/
theorem names_ofSources (options : MinifyOptions) (sources : List (List Char × List Char)) :
    (ofSources options sources).shaders.map Shader.name =
      (sources.filter fun s => (lex options.unknown s.2).outcome.isOk).map Prod.fst := by
  have run : ∀ b : Batch, b.options = options →
      (sources.foldl (fun b s => (b.add s.1 s.2).2) b).shaders.map Shader.name =
        b.shaders.map Shader.name ++
          (sources.filter fun s => (lex options.unknown s.2).outcome.isOk).map Prod.fst := by
    induction sources with
    | nil => exact fun b _ => (List.append_nil _).symm
    | cons s sources ih =>
      intro b ho
      rw [List.foldl_cons, ih _ ((options_add b _ _).trans ho), add_snd, ho]
      cases hs : (lex options.unknown s.2).outcome with
      | error e => rw [List.filter_cons_of_neg (by rw [hs]; exact Bool.false_ne_true)]
      | ok tokens =>
        rw [List.filter_cons_of_pos (by rw [hs]; rfl), List.map_append, List.append_assoc]
        rfl
  exact run (empty options) rfl

theorem names_eq_of_sameReading
    (h : List.Forall₂ (fun s s' => SameReading options.unknown s.2 s'.2) sources sources')
    (hnames : sources.map Prod.fst = sources'.map Prod.fst) :
    (ofSources options sources).shaders.map Shader.name =
      (ofSources options sources').shaders.map Shader.name := by
  rw [names_ofSources, names_ofSources]
  induction h with
  | nil => rfl
  | @cons s s' sources sources' hread _ ih =>
    obtain ⟨hname, hrest⟩ := List.cons.inj hnames
    have hok :
        (lex options.unknown s.2).outcome.isOk = (lex options.unknown s'.2).outcome.isOk := by
      have := congrArg Except.isOk hread.outcome
      cases hs : (lex options.unknown s.2).outcome <;>
        cases hs' : (lex options.unknown s'.2).outcome <;> rw [hs, hs'] at this <;> exact this
    rw [List.filter_cons, List.filter_cons, hok]
    split
    · rw [List.map_cons, List.map_cons, hname, ih hrest]
    · exact ih hrest

/-- The same error, or the same tables and artifacts that are alike. -/
inductive SameOutput :
    Except NamingError MinifiedBatch → Except NamingError MinifiedBatch → Prop
  | error (e : NamingError) : SameOutput (.error e) (.error e)
  | ok {m m' : MinifiedBatch} (names : m.names = m'.names) (exports : m.exports = m'.exports)
      (switches : m.switches = m'.switches)
      (artifacts : List.Forall₂ Artifacts.Alike m.artifacts m'.artifacts) :
      SameOutput (.ok m) (.ok m')

theorem Alike.settled (h : Alike b b') (hb : b.options.humanReadable = false) :
    b.settled.2 = b'.settled.2 ∧
      Shader.significants b.settled.1 = Shader.significants b'.settled.1 := by
  have hb' : b'.options.humanReadable = false := h.options ▸ hb
  rw [Batch.settled, Batch.settled, hb, hb', ← h.catalog]
  exact Shader.stripFrom_congr b.catalog b.catalog h.significants

/-- Settled shaders that differ in nothing significant are laid out alike. -/
theorem Alike.layouts (h : Alike b b') (hb : b.options.humanReadable = false) :
    List.Forall₂ (fun s s' => layout false s.tokens = layout false s'.tokens)
      b.settled.1 b'.settled.1 := by
  have hb' : b'.options.humanReadable = false := h.options ▸ hb
  have hlayout : ∀ {b : Batch}, b.options.humanReadable = false →
      b.settled.1.map (fun s => layout false s.tokens) =
        (Shader.significants b.settled.1).map (layout false) := by
    intro b hb
    rw [Shader.significants, List.map_map]
    refine List.map_congr_left fun s hs => ?_
    exact (Layout.layout_significantForm (isComment_of_mem_settled hb hs)).symm
  have hmap := (hlayout hb).trans
    ((congrArg (List.map (layout false)) (h.settled hb).2).trans (hlayout hb').symm)
  rwa [← List.forall₂_eq_eq_eq, List.forall₂_map_left_iff, List.forall₂_map_right_iff] at hmap

/-- Batches that differ in nothing significant come out alike. -/
theorem Alike.sameOutput (h : Alike b b') (hs : Sound b) (hs' : Sound b')
    (hb : b.options.humanReadable = false) : SameOutput b.finish b'.finish := by
  have hcatalog := (h.settled hb).1
  cases ht : RenameTable.allocate b.settled.2 b.options.humanReadable with
  | error e =>
    have ht' := ht
    rw [hcatalog, h.options] at ht'
    rw [finish_eq, finish_eq, ht, ht']
    exact .error e
  | ok t =>
    obtain ⟨m, hm⟩ := hs.finish_isOk ht
    obtain ⟨m', hm'⟩ := hs'.finish_isOk (by rw [← hcatalog, ← h.options]; exact ht)
    have hf := finished_of_finish hm
    have hf' := finished_of_finish hm'
    have hnames : m.names = m'.names := by
      have := hf.allocated
      rw [hcatalog, h.options, hf'.allocated] at this
      exact (Except.ok.inj this).symm
    rw [hm, hm']
    refine .ok hnames ?_ ?_ ?_
    · rw [hf.exports, hf'.exports, hcatalog]
    · rw [hf.switches, hf'.switches, hcatalog]
    · have hrendered := hf.rendered
      rw [hnames, hcatalog, h.options] at hrendered
      refine Artifacts.forall₂_alike_of_layouts hrendered hf'.rendered ?_
      rw [← h.options, hb]
      exact h.layouts hb

/-- With the same file names they come out the same. -/
theorem SameOutput.eq (h : SameOutput b.finish b'.finish) (hb : b.options.humanReadable = false)
    (hb' : b'.options.humanReadable = false)
    (hnames : b.shaders.map Shader.name = b'.shaders.map Shader.name) : b.finish = b'.finish := by
  have hshaders : ∀ {b : Batch} {m : MinifiedBatch}, b.options.humanReadable = false →
      b.finish = .ok m → m.artifacts.map Artifacts.shader = b.shaders.map Shader.name := by
    intro b m hb hm
    rw [← (finished_of_finish hm).map_artifacts (f := Shader.name) (g := Artifacts.shader)
      fun s a ha => (Artifacts.contents_of_render ha).1.symm]
    exact map_settled hb id
  generalize hm : b.finish = r at h ⊢
  generalize hm' : b'.finish = r' at h ⊢
  cases h with
  | error e => rfl
  | @ok m m' hn he hs ha =>
    have hmap : m.artifacts.map Artifacts.shader = m'.artifacts.map Artifacts.shader := by
      rw [hshaders hb hm, hshaders hb' hm', hnames]
    have hartifacts := Artifacts.eq_of_forall₂_alike ha hmap
    obtain ⟨artifacts, names, exports, switches⟩ := m
    obtain ⟨artifacts', names', exports', switches'⟩ := m'
    cases hartifacts
    cases hn
    cases he
    cases hs
    rfl

/-- Outside human-readable output two batches whose sources are lexed as the same tokens, but for
lines, raw texts and the text of blanks and comments, come out alike: the same error or the same
tables and contents, and the same files if the sources are named the same. -/
theorem finish_eq_of_condensed (hh : options.humanReadable = false)
    (h : List.Forall₂ (fun s s' => ∃ tokens tokens',
      (lex options.unknown s.2).outcome = .ok tokens ∧
      (lex options.unknown s'.2).outcome = .ok tokens' ∧ condensed tokens = condensed tokens')
      sources sources') :
    SameOutput (ofSources options sources).finish (ofSources options sources').finish ∧
      (sources.map Prod.fst = sources'.map Prod.fst →
        (ofSources options sources).finish = (ofSources options sources').finish) := by
  have hread :
      List.Forall₂ (fun s s' => SameReading options.unknown s.2 s'.2) sources sources' := by
    refine h.imp ?_
    rintro s s' ⟨tokens, tokens', hs, hs', hc⟩
    exact sameReading_of_condensed hs hs' hc
  have hb : ∀ sources, (ofSources options sources).options.humanReadable = false := by
    intro sources
    rw [options_ofSources, hh]
  have hsame := (alike_ofSources hread).sameOutput (sound_ofSources options sources)
    (sound_ofSources options sources') (hb sources)
  exact ⟨hsame, fun hnames => hsame.eq (hb sources) (hb sources')
    (names_eq_of_sameReading hread hnames)⟩

set_option maxRecDepth 8000 in
/-- A dead macro, two operators that a comment keeps apart, and an accessor. -/
theorem finish_eq_of_condensed_of_comments :
    (ofSources {} [(['a'], "#define D 1\na + +b.rg".toList)]).finish =
      (ofSources {} [(['a'], "#define D\t1//\n/**/a/**/+\n+b.rg".toList)]).finish := by
  let tail (line : Nat) : List Token := [.lexeme ['b'] line .identifier,
    .lexeme ['.'] line .operator, .lexeme ['r', 'g'] line .identifier]
  have hlex : (lex .pass "#define D 1\na + +b.rg".toList).outcome = .ok
      ([.define "#define D 1".toList 1 ['D'] none
          (some [.lexeme [' '] 1 .whitespace, .lexeme ['1'] 1 .intLiteral]),
        .lexeme ['\n'] 1 .whitespace, .lexeme ['a'] 2 .identifier, .lexeme [' '] 2 .whitespace,
        .lexeme ['+'] 2 .operator, .lexeme [' '] 2 .whitespace, .lexeme ['+'] 2 .operator] ++
        tail 2) := by
    cbv
  have hlex' : (lex .pass "#define D\t1//\n/**/a/**/+\n+b.rg".toList).outcome = .ok
      ([.define "#define D\t1".toList 1 ['D'] none
          (some [.lexeme ['\t'] 1 .whitespace, .lexeme ['1'] 1 .intLiteral]),
        .lexeme ['/', '/'] 1 .lineComment, .lexeme ['\n'] 1 .whitespace,
        .lexeme ['/', '*', '*', '/'] 2 .blockComment, .lexeme ['a'] 2 .identifier,
        .lexeme ['/', '*', '*', '/'] 2 .blockComment, .lexeme ['+'] 2 .operator,
        .lexeme ['\n'] 2 .whitespace, .lexeme ['+'] 3 .operator] ++ tail 3) := by
    cbv
  refine (finish_eq_of_condensed rfl (.cons ⟨_, _, hlex, hlex', ?_⟩ .nil)).2 rfl
  simp only [tail]
  cbv

end Batch

end ShaderPress
