import ShaderPress.Proofs.Batch.Contents
import ShaderPress.Proofs.Shader.Dropped
import ShaderPress.Proofs.Shader.Rereading

/-! # A batch of one file

A source whose names are words is settled without certain definitions, with the catalog of
its own occurrences.  Its artifacts hold the text of the settled stream.
-/
namespace ShaderPress

namespace Artifacts
variable {cx cx' : EmitContext} {s s' : Shader}

/-- Without exports the artifacts of a shader depend on its emitted code alone. -/
theorem render_congr (hname : s.name = s'.name) (hoptions : cx.options = cx'.options)
    (hx : cx.catalog.exports = []) (hx' : cx'.catalog.exports = [])
    (hemit : ∀ preserve, s.emit cx preserve = s'.emit cx' preserve) :
    render cx s = render cx' s' := by
  have hheader : s.exportsHeader cx = s'.exportsHeader cx' := by
    rw [Shader.exportsHeader, Shader.exportsHeader, hx, hx']
    rfl
  simp only [render, hheader, Shader.embeddedSource, Shader.offlineSource, hemit, hoptions, hname,
    Shader.exportsName, Shader.embeddedName, Shader.offlineName, Shader.stem]

theorem emit_of_render {a : Artifacts} (h : render cx s = .ok a) :
    ∃ newline, s.emit cx true = .ok (a.offline.contents, newline) := by
  obtain ⟨header, embedded, offline, -, -, ho, rfl⟩ := exists_of_render h
  obtain ⟨code, he, h⟩ := exists_of_bind_eq_ok ho
  cases h
  exact ⟨code.2, he⟩

end Artifacts

namespace Batch
open EmitContext Ident Layout Pattern Token Shader
variable {file source : List Char} {tokens : List Token} {t : RenameTable}
  {options : MinifyOptions}

theorem shaders_ofSources_singleton (h : (lex options.unknown source).outcome = .ok tokens) :
    (ofSources options [(file, source)]).shaders = [⟨file, tokens⟩] := by
  have hlex : (lex (empty options).options.unknown source).outcome = .ok tokens := h
  change ((empty options).add file source).2.shaders = _
  rw [add_snd, hlex]
  rfl

theorem catalog_ofSources_singleton (h : (lex options.unknown source).outcome = .ok tokens) :
    (ofSources options [(file, source)]).catalog = Catalog.empty.replay (noted tokens) := by
  change ((empty options).add file source).2.catalog = _
  rw [add_snd]
  exact congrArg Catalog.empty.replay (trail_lexFrom h)

/-- A source of words is settled without certain definitions, none exactly if all are live by
the counts of the lexer. -/
theorem settled_of_words (file : List Char) (h : (lex .pass source).outcome = .ok tokens)
    (hwords : ∀ p ∈ sites tokens, IsWord p.2.name) :
    ∃ dead, (removed dead tokens = 0 ↔
        AllLive (Catalog.empty.replay (noted tokens)) [⟨file, tokens⟩]) ∧
      (ofSources {} [(file, source)]).settled =
        ([⟨file, strip dead tokens⟩], Catalog.empty.replay (occurrences (strip dead tokens))) := by
  have hshaders : (ofSources {} [(file, source)]).shaders = [⟨file, tokens⟩] :=
    shaders_ofSources_singleton h
  have hcatalog : (ofSources {} [(file, source)]).catalog = Catalog.empty.replay (noted tokens) :=
    catalog_ofSources_singleton h
  generalize hlexed : Catalog.empty.replay (noted tokens) = lexed at hcatalog ⊢
  obtain ⟨dead, hdead, hleft⟩ := shaders_stripFrom lexed lexed [⟨file, tokens⟩]
  refine ⟨dead, ?_, ?_⟩
  · rw [removed_eq_zero_iff]
    constructor
    · intro hnone s hs x hx
      obtain rfl := List.mem_singleton.mp hs
      rw [← isDead_eq_false_iff]
      refine Bool.eq_false_iff.mpr fun hx' => ?_
      exact Bool.false_ne_true ((hnone x hx).symm.trans ((hdead x).mpr (.now hs hx hx')))
    · intro hlive x _
      exact Bool.eq_false_iff.mpr fun hx => not_drops_of_allLive hlive ((hdead x).mp hx)
  · have hplain : ∀ x ∈ lexed.names, isExport x = false := by
      intro x hx
      rw [← hlexed, Catalog.mem_names_replay, noted_eq_sites false tokens, List.map_map] at hx
      rcases hx with hx | hx
      · obtain ⟨p, hp, rfl⟩ := List.mem_map.mp hx
        exact isExport_of_isWord (hwords p hp)
      · cases hx
    rw [settled, options_ofSources, if_neg Bool.false_ne_true, hcatalog, hshaders, stripBatch]
    dsimp only
    rw [(stripFrom_spec lexed lexed _).2, hleft, Catalog.recount_of_no_exports hplain]
    simp only [List.map_cons, List.map_nil, without, List.flatMap_cons, List.flatMap_nil,
      List.append_nil]

/-- The text that is written of a shader is that of its settled stream. -/
theorem Sound.emit_eq {b : Batch} (h : Sound b) (hb : b.options.humanReadable = false)
    {t : RenameTable} (ht : RenameTable.allocate b.settled.2 false = .ok t) {s : Shader}
    (hs : s ∈ b.settled.1) (preserve : Bool) :
    s.emit ⟨t, b.settled.2, b.options⟩ preserve =
      .ok (Layout.textFrom (EmitContext.respell ⟨t, b.settled.2, b.options⟩ preserve) Layout.start
        s.tokens) := by
  rw [← hb] at ht
  obtain ⟨text, newline, he⟩ := h.emit_isOk ht hs preserve
  obtain ⟨hspell, hnewline⟩ := Shader.emit_eq_ok.mp he
  rw [hb, layout] at hspell hnewline
  rw [he, EmitContext.textFrom_of_spell hspell, hnewline]

theorem finish_of_settled {b : Batch} {s : Shader} {c : Catalog}
    (hb : b.options.humanReadable = false) (hs : b.settled = ([s], c)) {m : MinifiedBatch} :
    b.finish = .ok m ↔ ∃ t a, RenameTable.allocate c false = .ok t ∧
      Artifacts.render ⟨t, c, b.options⟩ s = .ok a ∧ m = ⟨[a], t, c.exports, c.switches⟩ := by
  constructor
  · intro h
    obtain ⟨allocated, rendered, exports, switches⟩ := finished_of_finish h
    rw [hb, hs] at allocated
    rw [hs] at rendered exports switches
    obtain ⟨artifacts, names, _, _⟩ := m
    cases exports
    cases switches
    cases rendered with
    | @cons _ a _ _ ha rest =>
      cases rest
      exact ⟨names, a, allocated, ha, rfl⟩
  · rintro ⟨t, a, ht, ha, rfl⟩
    rw [finish_eq, hs, hb]
    simp only [ht, bind, Except.bind, List.mapM_cons, List.mapM_nil, ha, pure, Except.pure]

theorem exports_of_words {c : Catalog} (h : ∀ x ∈ c.names, IsWord x) : c.exports = [] := by
  have hnone : c.names.filter isExport = [] := by
    rw [List.filter_eq_nil_iff]
    intro x hx
    rw [isExport_of_isWord (h x hx)]
    exact Bool.false_ne_true
  rw [Catalog.exports, hnone]
  rfl

theorem isWord_of_mem_mentioned (h : (lex .pass source).outcome = .ok tokens)
    (hsigil : '@' ∉ source ∧ '$' ∉ source) : ∀ x ∈ mentioned tokens, IsWord x := by
  intro x hx
  obtain ⟨o, ho, rfl⟩ := List.mem_map.mp (mentioned_subset_trail h hx)
  obtain ⟨hname, hsub⟩ := isName_of_mem_trail h o ho
  exact isWord_of_isName hname ⟨fun hm => hsigil.1 (hsub hm), fun hm => hsigil.2 (hsub hm)⟩

theorem isWord_of_mem_mentioned_strip (h : ∀ x ∈ mentioned tokens, IsWord x) (dead : Ident → Bool) :
    ∀ x ∈ mentioned (Token.strip dead tokens), IsWord x :=
  fun x hx => h x (mentioned_strip_subset dead tokens hx)

theorem Sound.emit_singleton {b : Batch} (hb : Sound b) (hoptions : b.options = {}) {s : Shader}
    {c : Catalog} (hs : b.settled = ([s], c)) (h : RenameTable.allocate c false = .ok t)
    (hc : c.switches = []) (preserve : Bool) :
    s.emit ⟨t, c, {}⟩ preserve = .ok (textFrom (respell ⟨t, c, {}⟩ true) start s.tokens) := by
  have hemit := hb.emit_eq (t := t) (s := s) (by rw [hoptions]) (by rw [hs]; exact h)
    (by rw [hs]; exact List.mem_singleton_self s) preserve
  rw [hs, hoptions] at hemit
  have hrespell : respell ⟨t, c, {}⟩ preserve = respell ⟨t, c, {}⟩ true := by
    funext followsPoint x
    rw [respell_eq hc, respell_eq hc]
  rw [hemit, hrespell]

theorem Sound.finish_singleton {b : Batch} (hb : Sound b) (hoptions : b.options = {}) {s : Shader}
    {c : Catalog} (hs : b.settled = ([s], c)) (h : RenameTable.allocate c false = .ok t) :
    ∃ m a, b.finish = .ok m ∧ m.names = t ∧ m.artifacts = [a] ∧
      ∃ newline, s.emit ⟨t, c, {}⟩ true = .ok (a.offline.contents, newline) := by
  obtain ⟨m, hm⟩ := hb.finish_isOk (t := t) (by rw [hs, hoptions]; exact h)
  obtain ⟨t', a, ht', hrender, rfl⟩ := (finish_of_settled (by rw [hoptions]) hs).mp hm
  obtain rfl := Except.ok.inj (h.symm.trans ht')
  rw [hoptions] at hrender
  exact ⟨_, a, hm, rfl, rfl, Artifacts.emit_of_render hrender⟩

/-- What a source of words is settled to, named and written as. -/
theorem finish_of_words (h : (lex .pass source).outcome = .ok tokens)
    (hwords : ∀ x ∈ mentioned tokens, IsWord x) {m : MinifiedBatch}
    (hm : (ofSources {} [(file, source)]).finish = .ok m) :
    ∃ dead a,
      let left := Token.strip dead tokens
      let c := Catalog.empty.replay (occurrences left)
      let cx : EmitContext := ⟨m.names, c, {}⟩
      (ofSources {} [(file, source)]).settled = ([⟨file, left⟩], c) ∧ m.artifacts = [a] ∧
        RenameTable.allocate c false = .ok m.names ∧ Artifacts.render cx ⟨file, left⟩ = .ok a ∧
        ∀ preserve, Shader.emit ⟨file, left⟩ cx preserve =
          .ok (textFrom (cx.respell true) start left) := by
  obtain ⟨dead, -, hsettled⟩ := settled_of_words file h fun p hp =>
    hwords _ (name_mem_mentioned false p hp)
  obtain ⟨t, a, ht, hrender, rfl⟩ := (finish_of_settled (by rw [options_ofSources]) hsettled).mp hm
  rw [options_ofSources] at hrender
  refine ⟨dead, a, hsettled, rfl, ht, hrender, ?_⟩
  exact (sound_ofSources {} [(file, source)]).emit_singleton (options_ofSources _ _) hsettled
    ht (switches_of_words fun p hp =>
      isWord_of_mem_mentioned_strip hwords dead _ (name_mem_mentioned false p hp))

end Batch

end ShaderPress
