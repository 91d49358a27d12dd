import ShaderPress.Proofs.Catalog.Counts

/-! # The names a catalog knows

A catalog knows the names of the occurrences that have been entered into it, and a
recount knows those of its streams and the exports known before.
-/
namespace ShaderPress.Catalog

theorem mem_map_name_bump {x name : Ident} {references : Nat} {es : List Entry} :
    x ∈ (bump name references es).map (·.name) ↔ x = name ∨ x ∈ es.map (·.name) := by
  induction es with
  | nil => simp [bump]
  | cons e es ih =>
    by_cases he : e.name = name
    · simp [bump, he]
    · simp only [bump, he, if_false, List.map_cons, List.mem_cons, ih]
      exact or_left_comm

@[simp] theorem mem_names_note {c : Catalog} {o : Occurrence} {x : Ident} :
    x ∈ (c.note o).names ↔ x = o.name ∨ x ∈ c.names := by
  cases o with
  | defined name | referenced name => exact mem_map_name_bump
  | tested name =>
    simp only [note, record, names, entries_recordSwitch]
    exact mem_map_name_bump

theorem mem_names_replay {c : Catalog} {trail : List Occurrence} {x : Ident} :
    x ∈ (c.replay trail).names ↔ x ∈ trail.map Occurrence.name ∨ x ∈ c.names := by
  induction trail generalizing c with
  | nil => simp
  | cons o trail ih =>
    rw [replay_cons, ih, mem_names_note, List.map_cons, List.mem_cons]
    exact or_left_comm.trans or_assoc.symm

/-- A recount knows every name that occurs in its streams. -/
theorem mem_names_recount {c : Catalog} {streams : List (List Token)} {tokens : List Token}
    (ht : tokens ∈ streams) {x : Ident} (hx : x ∈ (Token.occurrences tokens).map Occurrence.name) :
    x ∈ (c.recount streams).names := by
  obtain ⟨o, ho, rfl⟩ := List.mem_map.mp hx
  have hn : o.name ∈ (empty.replay (streams.flatMap Token.occurrences)).names :=
    mem_names_replay.mpr (Or.inl (List.mem_map_of_mem (List.mem_flatMap.mpr ⟨tokens, ht, ho⟩)))
  rw [recount, names, List.map_append]
  exact List.mem_append_left _ hn

end ShaderPress.Catalog
