import Mathlib
import ShaderPress.Proofs.Catalog.Priority
import ShaderPress.Proofs.Rename.Fixpoint

/-! # Naming what has been named, by any catalog of the names

Naming sees of a catalog how often each name occurs, in the order of first meeting, and the
switches.  So every catalog that has the output names in the place of the identifiers is named like
the renamed one: each name is given to itself.
-/
namespace ShaderPress

namespace RenameTable
open Ident

theorem allocate_congr {c c' : Catalog}
    (hentries : c.entries.map Entry.frequency = c'.entries.map Entry.frequency)
    (hswitches : c.switches = c'.switches) (humanReadable : Bool) :
    allocate c humanReadable = allocate c' humanReadable := by
  have hnames : c.byPriority.map (·.name) = c'.byPriority.map (·.name) := by
    rw [Catalog.names_byPriority_eq, Catalog.names_byPriority_eq, hentries]
  rw [allocate, allocate, hnames, hswitches]

/-- The second catalog has the output names in the place of the identifiers of the first, each as
often and in the same order, and no switches. -/
structure Replaces (t : RenameTable) (c c' : Catalog) : Prop where
  entries : List.Forall₂ (fun e e' => t.get? e.name = some e'.name ∧ e'.total = e.total)
    c.entries c'.entries
  switches : c'.switches = []

/-- As far as naming can see, there is one such catalog. -/
theorem Replaces.frequency_eq {t : RenameTable} {c c' : Catalog} (h : Replaces t c c') :
    c'.entries.map Entry.frequency = (c.rename t.nameOf).entries.map Entry.frequency := by
  rw [Catalog.rename, List.map_map]
  obtain ⟨hentries, -⟩ := h
  generalize c.entries = es at hentries ⊢
  generalize c'.entries = es' at hentries ⊢
  induction hentries with
  | nil => rfl
  | @cons e e' es es' he _ ih =>
    have hhead : e'.frequency = (Entry.frequency ∘ Entry.rename t.nameOf) e := by
      rw [Function.comp_apply, Entry.frequency, Entry.frequency, Entry.rename, he.2]
      rw [nameOf_of_get? he.1]
    rw [List.map_cons, List.map_cons, hhead, ih]

theorem Replaces.names_eq {t : RenameTable} {c c' : Catalog} (h : Replaces t c c') :
    c'.names = c.names.map t.nameOf := by
  rw [Catalog.names_eq_map_frequency, h.frequency_eq, ← Catalog.names_eq_map_frequency]
  exact Catalog.names_rename c

theorem replaces_rename {c : Catalog} {t : RenameTable} (h : allocate c false = .ok t)
    (hswitches : c.switches = []) : Replaces t c (c.rename t.nameOf) := by
  constructor
  · rw [Catalog.rename, List.forall₂_map_right_iff, List.forall₂_same]
    intro e he
    exact ⟨get?_nameOf h (List.mem_map_of_mem he), rfl⟩
  · rw [Catalog.rename, hswitches, List.map_nil]

/-- A catalog without sigils and switches is named, and so is any catalog that has the names in the
place of the identifiers; it gives each of them to itself. -/
theorem allocate_replaced {c : Catalog} {t : RenameTable} (h : allocate c false = .ok t)
    (hnodup : c.names.Nodup) (hswitches : c.switches = []) (hplain : ∀ x ∈ c.names, HasNoSigil x) :
    (∃ c', Replaces t c c') ∧ ∀ c', Replaces t c c' →
      c'.names.Nodup ∧ ∃ t', allocate c' false = .ok t' ∧
        ∀ x ∈ c.names, ∃ name, t.get? x = some name ∧ t'.get? name = some name := by
  refine ⟨⟨_, replaces_rename h hswitches⟩, fun c' hc' => ?_⟩
  have hsame : (c.rename t.nameOf).switches = [] := (replaces_rename h hswitches).switches
  have hallocated : allocate c' false = .ok t.diagonal := by
    rw [allocate_congr hc'.frequency_eq (hc'.switches.trans hsame.symm)]
    exact allocate_rename h hplain hswitches hnodup
  refine ⟨?_, t.diagonal, hallocated, fun x hx => ⟨t.nameOf x, get?_nameOf h hx, ?_⟩⟩
  · rw [hc'.names_eq]
    exact hnodup.map_on fun x hx y hy => injOn_nameOf h hplain hx hy
  · have hmem : t.nameOf x ∈ c'.names := by
      rw [hc'.names_eq]
      exact List.mem_map_of_mem hx
    obtain ⟨name, hn⟩ := Option.isSome_iff_exists.mp (isSome_get? hallocated hmem)
    rw [hn, get?_diagonal hn]

set_option maxRecDepth 8000 in
/-- `c` gives its spelling to `foo`; `b` is reserved and stays between names that occur as often. -/
theorem allocate_replaced_of_tie :
    let c : Catalog := ⟨[⟨['f', 'o', 'o'], 1, 1⟩, ⟨['b'], 1, 1⟩, ⟨['b', 'a', 'r'], 1, 0⟩,
      ⟨['c'], 2, 2⟩], []⟩
    let t : RenameTable := ⟨[(['b'], ['b']), (['c'], ['a']), (['f', 'o', 'o'], ['c']),
      (['b', 'a', 'r'], ['d'])]⟩
    let c' : Catalog := ⟨[⟨['c'], 1, 0⟩, ⟨['b'], 1, 0⟩, ⟨['d'], 1, 1⟩, ⟨['a'], 2, 0⟩], []⟩
    allocate c false = .ok t ∧ c.names.Nodup ∧ (∀ x ∈ c.names, HasNoSigil x) ∧ Replaces t c c' ∧
      ∃ t', allocate c' false = .ok t' ∧ t'.get? ['c'] = some ['c'] := by
  intro c t c'
  have h : allocate c false = .ok t := by
    simp only [c, t]
    cbv
  have hnodup : c.names.Nodup := by decide
  have hplain : ∀ x ∈ c.names, HasNoSigil x := by
    have hall : c.names.all (fun x => !isExport x && !isPinned x) = true := by decide
    intro x hx
    simpa [HasNoSigil] using List.all_eq_true.mp hall x hx
  have hreplaces : Replaces t c c' := by
    refine ⟨?_, rfl⟩
    simp only [c, c', t, List.forall₂_cons, List.forall₂_nil_left_iff]
    decide
  obtain ⟨-, t', ht', hself⟩ := (allocate_replaced h hnodup rfl hplain).2 c' hreplaces
  obtain ⟨name, hn, hn'⟩ := hself ['f', 'o', 'o'] (by decide)
  obtain rfl : ['c'] = name := Option.some.inj hn
  exact ⟨h, hnodup, hplain, hreplaces, t', ht', hn'⟩

end RenameTable

end ShaderPress
