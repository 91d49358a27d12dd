import ShaderPress.Batch
import ShaderPress.Proofs.Catalog.Names
import ShaderPress.Proofs.Shader.Layout
import ShaderPress.Proofs.Shader.Rounds

/-! # What is written of a batch

Every shader of a batch is a lexed source, and the catalog knows what each of them
mentions, whatever was added before, between and after them.  Of such a batch every
name that writing looks up is known to the catalog from which the names are allocated.
-/
namespace ShaderPress

namespace Batch
open Token
variable {b : Batch}

/-- The batch after any number of sources, each with its file name. -/
def ofSources (options : MinifyOptions) (sources : List (List Char × List Char)) : Batch :=
  sources.foldl (fun b s => (b.add s.1 s.2).2) (empty options)

/-- The shaders are lexed sources, and the catalog knows what they mention. -/
structure Sound (b : Batch) : Prop where
  lexed : ∀ s ∈ b.shaders, ∃ source, (lex b.options.unknown source).outcome = .ok s.tokens
  known : ∀ s ∈ b.shaders, mentioned s.tokens ⊆ b.catalog.names

theorem add_snd (b : Batch) (name source : List Char) :
    (b.add name source).2 = ⟨b.options, b.catalog.replay (lex b.options.unknown source).trail,
      match (lex b.options.unknown source).outcome with
      | .ok tokens => b.shaders ++ [⟨name, tokens⟩]
      | .error _ => b.shaders⟩ := by
  rw [add, Shader.read]
  cases (lex b.options.unknown source).outcome <;> rfl

@[simp] theorem options_add (b : Batch) (name source : List Char) :
    (b.add name source).2.options = b.options := by
  rw [add_snd]

theorem sound_empty (options : MinifyOptions) : Sound (empty options) :=
  ⟨fun _ hs => absurd hs List.not_mem_nil, fun _ hs => absurd hs List.not_mem_nil⟩

/-- One more source, whether it can be lexed or not, leaves a batch sound. -/
theorem Sound.add (h : Sound b) (name source : List Char) : Sound (b.add name source).2 := by
  have kept : ∀ s ∈ b.shaders,
      mentioned s.tokens ⊆ (b.catalog.replay (lex b.options.unknown source).trail).names := by
    intro s hs x hx
    exact Catalog.mem_names_replay.mpr (Or.inr (h.known s hs hx))
  rw [add_snd]
  cases ho : (lex b.options.unknown source).outcome with
  | error e => exact ⟨h.lexed, kept⟩
  | ok tokens =>
    constructor
    · intro s hs
      rcases List.mem_append.mp hs with hs | hs
      · exact h.lexed s hs
      · rw [List.mem_singleton.mp hs]
        exact ⟨source, ho⟩
    · intro s hs
      rcases List.mem_append.mp hs with hs | hs
      · exact kept s hs
      · rw [List.mem_singleton.mp hs]
        intro x hx
        exact Catalog.mem_names_replay.mpr (Or.inl (mentioned_subset_trail ho hx))

theorem Sound.foldl_add (h : Sound b) (sources : List (List Char × List Char)) :
    Sound (sources.foldl (fun b s => (b.add s.1 s.2).2) b) := by
  induction sources generalizing b with
  | nil => exact h
  | cons s sources ih => exact ih (h.add s.1 s.2)

theorem sound_ofSources (options : MinifyOptions) (sources : List (List Char × List Char)) :
    Sound (ofSources options sources) :=
  (sound_empty options).foldl_add sources

theorem options_foldl_add (b : Batch) (sources : List (List Char × List Char)) :
    (sources.foldl (fun b s => (b.add s.1 s.2).2) b).options = b.options := by
  induction sources generalizing b with
  | nil => rfl
  | cons s sources ih => exact (ih _).trans (options_add b s.1 s.2)

@[simp] theorem options_ofSources (options : MinifyOptions)
    (sources : List (List Char × List Char)) : (ofSources options sources).options = options :=
  options_foldl_add (empty options) sources

/-- Outside human-readable output the shaders are written without certain definitions, and
the catalog is counted anew. -/
theorem settled_false (hb : b.options.humanReadable = false) :
    (∃ dead, b.settled.1 = b.shaders.map (Shader.without dead)) ∧
      b.settled.2 = b.catalog.recount (b.settled.1.map Shader.tokens) := by
  rw [settled, hb]
  exact Shader.stripFrom_spec b.catalog b.catalog b.shaders

theorem isComment_of_mem_settled (hb : b.options.humanReadable = false) {s : Shader}
    (hs : s ∈ b.settled.1) : ∀ t ∈ deep s.tokens, t.isComment = false := by
  obtain ⟨⟨dead, hd⟩, -⟩ := settled_false hb
  obtain ⟨u, -, rfl⟩ := List.mem_map.mp (hd ▸ hs)
  exact isComment_of_mem_strip dead u.tokens

/-- Every name of a layout is known to the catalog that is settled with it. -/
theorem Sound.names_layout_subset (h : Sound b) {s : Shader} (hs : s ∈ b.settled.1) :
    Layout.names (layout b.options.humanReadable s.tokens).1 ⊆ b.settled.2.names := by
  cases hb : b.options.humanReadable with
  | true =>
    rw [settled, if_pos hb] at hs ⊢
    have hm : Layout.names (layout true s.tokens).1 ⊆ mentioned s.tokens :=
      (Layout.names_layout_sublist s.tokens).subset
    exact List.Subset.trans hm (h.known s hs)
  | false =>
    obtain ⟨-, hc⟩ := settled_false hb
    -- the recount reads the stripped stream the way the layout does, since no comment is left
    have hk := isComment_of_mem_settled hb hs
    have ho : Layout.names (layout false s.tokens).1 ⊆ (occurrences s.tokens).map Occurrence.name :=
      Layout.names_streamPieces_subset_occurrences
        (fun t ht => (throughout_of_deep hk t ht).own)
        (fun t ht => Layout.names_written_subset_occurrencesOf (throughout_of_deep hk t ht))
        Layout.start
    intro x hx
    rw [hc]
    exact Catalog.mem_names_recount (List.mem_map_of_mem hs) (ho hx)

end Batch

end ShaderPress
