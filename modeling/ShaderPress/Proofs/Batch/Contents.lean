import ShaderPress.Proofs.Batch.Finish
import ShaderPress.Proofs.Shader.Rendered

/-! # What a finished batch is made of

A batch that finishes has one table, allocated from the settled catalog, and its artifacts
are those of the settled shaders in order, rendered by that table.
-/
namespace ShaderPress.Batch

/-- The table and the artifacts of a finished batch, and what its rename map holds beside. -/
structure Finished (b : Batch) (m : MinifiedBatch) : Prop where
  allocated : RenameTable.allocate b.settled.2 b.options.humanReadable = .ok m.names
  rendered : List.Forall₂
    (fun s a => Artifacts.render ⟨m.names, b.settled.2, b.options⟩ s = .ok a) b.settled.1 m.artifacts
  exports : m.exports = b.settled.2.exports
  switches : m.switches = b.settled.2.switches

theorem finished_of_finish {b : Batch} {m : MinifiedBatch} (h : b.finish = .ok m) :
    Finished b m := by
  rw [finish_eq] at h
  obtain ⟨names, hnames, h⟩ := exists_of_bind_eq_ok h
  obtain ⟨artifacts, hartifacts, h⟩ := exists_of_bind_eq_ok h
  cases h
  exact ⟨hnames, forall₂_of_mapM hartifacts, rfl, rfl⟩

/-- What holds of each rendered shader holds of the artifacts one by one. -/
theorem Finished.map_artifacts {b : Batch} {m : MinifiedBatch} (h : Finished b m) {β : Type}
    {f : Shader → β} {g : Artifacts → β}
    (hfg : ∀ s a, Artifacts.render ⟨m.names, b.settled.2, b.options⟩ s = .ok a → f s = g a) :
    b.settled.1.map f = m.artifacts.map g := by
  rw [← List.forall₂_eq_eq_eq, List.forall₂_map_left_iff, List.forall₂_map_right_iff]
  exact h.rendered.imp hfg

/-- Stripping leaves the file names as they are. -/
theorem map_settled {b : Batch} (hb : b.options.humanReadable = false) {β : Type}
    (f : List Char → β) :
    b.settled.1.map (fun s => f s.name) = b.shaders.map fun s => f s.name := by
  obtain ⟨⟨dead, hd⟩, -⟩ := settled_false hb
  rw [hd, List.map_map]
  rfl

theorem allocate_empty (humanReadable : Bool) :
    RenameTable.allocate .empty humanReadable = .ok .empty := by
  have hnames : Catalog.empty.byPriority = [] := List.mergeSort_nil
  rw [RenameTable.allocate, hnames]
  cases humanReadable <;> rfl

/-- A batch without identifiers is finished with an empty table. -/
theorem exists_finish_of_settled {options : MinifyOptions} {sources : List (List Char × List Char)}
    {shaders : List Shader} (hs : (ofSources options sources).settled = (shaders, .empty)) :
    ∃ artifacts, (ofSources options sources).finish = .ok ⟨artifacts, .empty, [], []⟩ ∧
      List.Forall₂ (fun s a => Artifacts.render ⟨.empty, .empty, options⟩ s = .ok a)
        shaders artifacts := by
  have hc : (ofSources options sources).settled.2 = .empty := by rw [hs]
  obtain ⟨m, hm⟩ := (sound_ofSources options sources).finish_isOk
    (by rw [hc]; exact allocate_empty _)
  obtain ⟨hallocated, hrendered, hexports, hswitches⟩ := finished_of_finish hm
  rw [hs, options_ofSources] at hrendered
  rw [hc, allocate_empty] at hallocated
  rw [hc] at hexports hswitches
  obtain ⟨artifacts, names, exports, switches⟩ := m
  cases hallocated
  obtain rfl : exports = [] := hexports
  obtain rfl : switches = [] := hswitches
  exact ⟨artifacts, hm, hrendered⟩

end ShaderPress.Batch
