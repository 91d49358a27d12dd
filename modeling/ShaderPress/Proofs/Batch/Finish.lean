import Mathlib
import ShaderPress.Proofs.Batch.Settled
import ShaderPress.Proofs.Outcome
import ShaderPress.Proofs.Rename.Allocation
import ShaderPress.Proofs.Shader.Halting

/-! # Finishing a batch

Once names have been allocated no name is missing: every identifier that an artifact holds
and every export has its own.  A release build then writes the batch.  So does a debug build,
unless the argument list of some macro ends in a directive, which an assertion excludes.
-/
namespace ShaderPress

namespace Batch
variable {b : Batch}

theorem Sound.isSome_get?_layout (h : Sound b) {t : RenameTable}
    (ht : RenameTable.allocate b.settled.2 b.options.humanReadable = .ok t) {s : Shader}
    (hs : s ∈ b.settled.1) {x : Ident}
    (hx : x ∈ Layout.names (layout b.options.humanReadable s.tokens).1) :
    (t.get? x).isSome = true :=
  RenameTable.isSome_get? ht (h.names_layout_subset hs hx)

/-- Every shader of a batch is emitted once names have been allocated. -/
theorem Sound.emit_isOk (h : Sound b) {t : RenameTable}
    (ht : RenameTable.allocate b.settled.2 b.options.humanReadable = .ok t) {s : Shader}
    (hs : s ∈ b.settled.1) (preserve : Bool) :
    ∃ text newline, s.emit ⟨t, b.settled.2, b.options⟩ preserve = .ok (text, newline) := by
  have hnamed : ∀ x ∈ Layout.names (layout b.options.humanReadable s.tokens).1,
      (t.get? x).isSome = true := fun x hx => h.isSome_get?_layout ht hs hx
  obtain ⟨⟨text, newline⟩, he⟩ :=
    @Shader.emit_isOk ⟨t, b.settled.2, b.options⟩ s preserve hnamed
  exact ⟨text, newline, he⟩

theorem isSome_get?_export {t : RenameTable}
    (ht : RenameTable.allocate b.settled.2 b.options.humanReadable = .ok t) {x : Ident}
    (hx : x ∈ b.settled.2.exports) : (t.get? x).isSome = true :=
  RenameTable.isSome_get? ht (Catalog.mem_exports.mp hx).1

theorem finish_eq (b : Batch) : b.finish = (do
    let names ← RenameTable.allocate b.settled.2 b.options.humanReadable
    let artifacts ← b.settled.1.mapM (Artifacts.render ⟨names, b.settled.2, b.options⟩)
    pure ⟨artifacts, names, b.settled.2.exports, b.settled.2.switches⟩) := rfl

/-- Once names have been allocated a sound batch is written. -/
theorem Sound.finish_isOk (h : Sound b) {t : RenameTable}
    (ht : RenameTable.allocate b.settled.2 b.options.humanReadable = .ok t) :
    ∃ minified, b.finish = .ok minified := by
  have hr : ∃ artifacts,
      b.settled.1.mapM (Artifacts.render ⟨t, b.settled.2, b.options⟩) = .ok artifacts := by
    refine exists_mapM_eq_ok_iff.mpr fun s hs => Artifacts.render_isOk ?_ ?_
    · exact fun x hx => h.isSome_get?_layout ht hs hx
    · exact fun x hx => isSome_get?_export ht hx
  obtain ⟨artifacts, ha⟩ := hr
  refine ⟨⟨artifacts, t, b.settled.2.exports, b.settled.2.switches⟩, ?_⟩
  simp only [finish_eq, ht, bind, Except.bind, ha, pure, Except.pure]

theorem finishIn_eq (build : Build) (b : Batch) : b.finishIn build = (do
    let names ← (RenameTable.allocate b.settled.2 b.options.humanReadable).mapError Halt.naming
    let artifacts ←
      b.settled.1.mapM (Artifacts.renderIn build ⟨names, b.settled.2, b.options⟩)
    pure ⟨artifacts, names, b.settled.2.exports, b.settled.2.switches⟩) := rfl

/-- Where no assertion fails, a build of either kind finishes a batch as a release build does. -/
theorem finishIn_of_none {build : Build} (h : build = .debug → ∀ s ∈ b.settled.1,
    layoutStop? b.options.humanReadable s.tokens = none) :
    b.finishIn build = b.finish.mapError .naming := by
  rw [finishIn_eq, finish_eq]
  cases RenameTable.allocate b.settled.2 b.options.humanReadable with
  | error => rfl
  | ok t =>
    have hr : b.settled.1.mapM (Artifacts.renderIn build ⟨t, b.settled.2, b.options⟩) =
        (b.settled.1.mapM (Artifacts.render ⟨t, b.settled.2, b.options⟩)).mapError .naming :=
      mapM_mapError fun s hs => Artifacts.renderIn_of_none fun hd => h hd s hs
    simp only [Except.mapError, bind, Except.bind, hr]
    cases b.settled.1.mapM (Artifacts.render ⟨t, b.settled.2, b.options⟩) <;> rfl

theorem finishIn_release (b : Batch) : b.finishIn .release = b.finish.mapError .naming :=
  finishIn_of_none fun h => Build.noConfusion h

/-- A debug build comes to an argument list that ends in a directive: the batch is minified, its
names are allocated, and what is left of some shader holds such a list, at any depth. -/
structure Halts (build : Build) (b : Batch) : Prop where
  debug : build = .debug
  minified : b.options.humanReadable = false
  named : ∃ t, RenameTable.allocate b.settled.2 false = .ok t
  list : ∃ s ∈ b.settled.1, ∃ u ∈ Token.deep s.tokens, u.listEndsInDirective = true

/-- The assertion fails in a shader that is written exactly if, outside human-readable output, one
of its argument lists ends in a directive. -/
theorem Sound.layoutStop?_eq_none_iff (h : Sound b) {s : Shader} (hs : s ∈ b.settled.1) :
    layoutStop? b.options.humanReadable s.tokens = none ↔
      (b.options.humanReadable = false →
        ∀ u ∈ Token.deep s.tokens, u.listEndsInDirective = false) := by
  rw [Layout.layoutStop?_eq_none_iff]
  cases hb : b.options.humanReadable with
  | true =>
    rw [settled, if_pos hb] at hs
    obtain ⟨source, ho⟩ := h.lexed s hs
    exact iff_of_true (Layout.listEndsLine_true ho) fun hf => Bool.noConfusion hf
  | false =>
    obtain ⟨⟨dead, hd⟩, -⟩ := settled_false hb
    obtain ⟨u, hu, rfl⟩ := List.mem_map.mp (hd ▸ hs)
    obtain ⟨source, ho⟩ := h.lexed u hu
    have hends := Token.endsWords_of_mem_strip ho dead
    rw [forall_prop_of_true rfl]
    exact forall₂_congr fun v hv => by rw [Layout.listEndsLine_false (hends v hv)]

theorem Sound.finishIn_of_halts (h : Sound b) {build : Build} (hb : Halts build b) :
    b.finishIn build = .error .listEndsLine := by
  obtain ⟨rfl, hmin, ⟨t, ht⟩, s, hs, u, hu, hlist⟩ := hb
  rw [← hmin] at ht
  have named : ∀ s ∈ b.settled.1, ∀ x ∈ Layout.names (layout b.options.humanReadable s.tokens).1,
      (t.get? x).isSome = true := fun s hs x hx => h.isSome_get?_layout ht hs hx
  have exported : ∀ x ∈ b.settled.2.exports, (t.get? x).isSome = true :=
    fun x hx => isSome_get?_export ht hx
  have hr : b.settled.1.mapM (Artifacts.renderIn .debug ⟨t, b.settled.2, b.options⟩) =
      .error .listEndsLine := by
    refine mapM_eq_error ?_ ⟨s, hs, ?_⟩
    · intro v hv e he
      cases hstop : layoutStop? b.options.humanReadable v.tokens with
      | some pieces =>
        rw [Artifacts.renderIn_of_some hstop (named v hv) exported] at he
        exact (Except.error.inj he).symm
      | none =>
        obtain ⟨artifacts, ha⟩ := @Artifacts.render_isOk ⟨t, b.settled.2, b.options⟩ v
          (named v hv) exported
        rw [Artifacts.renderIn_of_none fun _ => hstop, ha] at he
        cases he
    · cases hstop : layoutStop? b.options.humanReadable s.tokens with
      | some pieces => exact Artifacts.renderIn_of_some hstop (named s hs) exported
      | none =>
        rw [(h.layoutStop?_eq_none_iff hs).mp hstop hmin u hu] at hlist
        cases hlist
  simp only [finishIn_eq, ht, Except.mapError, bind, Except.bind, hr]

theorem Sound.finishIn_of_not_halts (h : Sound b) {build : Build} (hb : ¬ Halts build b) :
    (∃ minified, b.finishIn build = .ok minified) ∨
      ∃ x, b.finishIn build = .error (.naming (.nameSpaceExhausted x NameStyle.maxLength)) := by
  cases ht : RenameTable.allocate b.settled.2 b.options.humanReadable with
  | error e =>
    obtain ⟨x, rfl⟩ := RenameTable.allocate_eq_error ht
    exact Or.inr ⟨x, by rw [finishIn_eq, ht]; rfl⟩
  | ok t =>
    have hstop : build = .debug → ∀ s ∈ b.settled.1,
        layoutStop? b.options.humanReadable s.tokens = none := by
      intro hd s hs
      refine (h.layoutStop?_eq_none_iff hs).mpr fun hmin u hu => ?_
      refine Bool.eq_false_iff.mpr fun hlist => ?_
      exact hb ⟨hd, hmin, ⟨t, hmin ▸ ht⟩, s, hs, u, hu, hlist⟩
    obtain ⟨m, hm⟩ := h.finish_isOk ht
    exact Or.inl ⟨m, by rw [finishIn_of_none hstop, hm]; rfl⟩

/-- After any sources a build finishes the batch or runs out of names, unless it is a debug build
that comes to an argument list which ends in a directive: then its assertion fails.  A release
build does what `finish` says.  An allocated table names every identifier that writing looks up,
at any depth, and every export. -/
theorem finishIn_total_iff (build : Build) (options : MinifyOptions)
    (sources : List (List Char × List Char)) :
    (((∃ minified, (ofSources options sources).finishIn build = .ok minified) ∨
        ∃ x, (ofSources options sources).finishIn build =
          .error (.naming (.nameSpaceExhausted x NameStyle.maxLength))) ↔
      ¬ Halts build (ofSources options sources)) ∧
    (Halts build (ofSources options sources) →
      (ofSources options sources).finishIn build = .error .listEndsLine) ∧
    (ofSources options sources).finishIn .release =
      (ofSources options sources).finish.mapError .naming ∧
    ∀ t, RenameTable.allocate (ofSources options sources).settled.2 options.humanReadable = .ok t →
      (∀ s ∈ (ofSources options sources).settled.1, ∀ x,
        .name x ∈ (layout options.humanReadable s.tokens).1 → (t.get? x).isSome = true) ∧
      ∀ x ∈ (ofSources options sources).settled.2.exports, (t.get? x).isSome = true := by
  have h := sound_ofSources options sources
  have ho := options_ofSources options sources
  generalize ofSources options sources = b at h ho ⊢
  subst ho
  refine ⟨⟨?_, h.finishIn_of_not_halts⟩, h.finishIn_of_halts, finishIn_release b, ?_⟩
  · rintro hok hhalts
    rw [h.finishIn_of_halts hhalts] at hok
    rcases hok with ⟨_, hm⟩ | ⟨_, hx⟩
    · cases hm
    · cases hx
  · intro t ht
    constructor
    · intro s hs x hx
      exact h.isSome_get?_layout ht hs (Layout.mem_names.mpr hx)
    · intro x hx
      exact isSome_get?_export ht hx

set_option maxRecDepth 8000 in
/-- A debug build stops at a list whose parenthesis has been taken by a directive. -/
theorem finishIn_debug_of_list :
    let b := ofSources {} [("a.glsl".toList, "#define F(a #b) 1\nF".toList)]
    b.finishIn .debug = .error .listEndsLine ∧
      ¬ ((∃ minified, b.finishIn .debug = .ok minified) ∨
        ∃ x, b.finishIn .debug =
          .error (.naming (.nameSpaceExhausted x NameStyle.maxLength))) := by
  intro b
  have h : b.finishIn .debug = .error .listEndsLine := by
    simp only [b]
    cbv
  rw [h]
  refine ⟨rfl, ?_⟩
  rintro (⟨_, hm⟩ | ⟨_, hx⟩)
  · cases hm
  · cases hx

end Batch

end ShaderPress
