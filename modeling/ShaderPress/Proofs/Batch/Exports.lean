import Mathlib
import ShaderPress.Proofs.Batch.Contents
import ShaderPress.Proofs.Shader.Passes

/-! # Exports are never lost

The catalog of a batch has met every export that lexing has noted, in whatever file, and
stripping keeps them through all its passes.  So each header of a finished batch lists all
of them in order, with names that tell them apart.
-/
namespace ShaderPress

namespace RenameTable
open Ident
variable {c : Catalog} {t : RenameTable}

theorem literal_of_isExport {x : Ident} (hx : isExport x = true) :
    literal x = exportMark ++ x.tail := by
  cases x with
  | nil => cases hx
  | cons a x =>
    have ha : a = '@' := by simpa [isExport] using hx
    rw [literal, if_pos hx, ha]
    rfl

theorem eq_of_literal_eq {x y : Ident} (hx : isExport x = true) (hy : isExport y = true)
    (h : literal x = literal y) : x = y := by
  rw [literal_of_isExport hx, literal_of_isExport hy, List.append_cancel_left_eq] at h
  cases x with
  | nil => cases hx
  | cons a x =>
    cases y with
    | nil => cases hy
    | cons b y =>
      have ha : a = '@' := by simpa [isExport] using hx
      have hb : b = '@' := by simpa [isExport] using hy
      rw [ha, hb]
      exact congrArg _ h

/-- Exports with one name are one export, whether they are renamed or keep their spelling. -/
theorem eq_of_nameOf_eq (h : allocate c false = .ok t) {x y : Ident}
    (hx : x ∈ c.exports) (hy : y ∈ c.exports) (he : t.nameOf x = t.nameOf y) : x = y := by
  have apart : ∀ {x y : Ident}, x ∈ renamed c → y ∈ kept c → t.nameOf x ≠ t.nameOf y := by
    intro x y hx hy he
    have hname : t.nameOf y = literal y := by rw [nameOf, get?_of_kept h hy, Option.getD_some]
    refine (nameOf_of_renamed h hx).1 ?_
    rw [he, hname]
    exact literal_mem_claimed hy
  obtain ⟨hxn, hxe⟩ := Catalog.mem_exports.mp hx
  obtain ⟨hyn, hye⟩ := Catalog.mem_exports.mp hy
  have hgx := get?_nameOf h hxn
  have hgy := get?_nameOf h hyn
  cases hrx : isRenameable x with
  | true =>
    have hxr := mem_renamed.mpr ⟨hxn, hrx⟩
    cases hry : isRenameable y with
    | true => exact eq_of_get?_eq h hxr (mem_renamed.mpr ⟨hyn, hry⟩) hgx (he ▸ hgy)
    | false => exact absurd he (apart hxr (mem_kept.mpr ⟨hyn, hry⟩))
  | false =>
    have hxk := mem_kept.mpr ⟨hxn, hrx⟩
    cases hry : isRenameable y with
    | true => exact absurd he.symm (apart (mem_renamed.mpr ⟨hyn, hry⟩) hxk)
    | false =>
      rw [get?_of_kept h hxk] at hgx
      rw [get?_of_kept h (mem_kept.mpr ⟨hyn, hry⟩), ← he] at hgy
      exact eq_of_literal_eq hxe hye (Option.some.inj (hgx.trans hgy.symm))

theorem mem_sorted_of_mem_names {humanReadable : Bool} (h : allocate c humanReadable = .ok t)
    {x : Ident} (hx : x ∈ c.names) : (x, t.nameOf x) ∈ t.sorted := by
  obtain ⟨name, hn⟩ := Option.isSome_iff_exists.mp (isSome_get? h hx)
  rw [nameOf, hn, Option.getD_some, sorted, List.mem_mergeSort]
  exact mem_of_lookup hn

end RenameTable

namespace Batch
open Ident
variable {options : MinifyOptions} {sources : List (List Char × List Char)}

theorem catalog_foldl_add (b : Batch) (sources : List (List Char × List Char)) :
    (sources.foldl (fun b s => (b.add s.1 s.2).2) b).catalog =
      b.catalog.replay (sources.flatMap fun s => (lex b.options.unknown s.2).trail) := by
  induction sources generalizing b with
  | nil => rfl
  | cons s sources ih =>
    have hadd : (b.add s.1 s.2).2.catalog = b.catalog.replay (lex b.options.unknown s.2).trail := by
      rw [add_snd]
    rw [List.foldl_cons, ih, options_add, hadd, List.flatMap_cons, Catalog.replay_append]

/-- The exports of a batch are those that lexing its sources has noted. -/
theorem mem_exports_ofSources {x : Ident} : x ∈ (ofSources options sources).catalog.exports ↔
    isExport x = true ∧ ∃ s ∈ sources, ∃ o ∈ (lex options.unknown s.2).trail, o.name = x := by
  have hcatalog : (ofSources options sources).catalog =
      Catalog.empty.replay (sources.flatMap fun s => (lex options.unknown s.2).trail) :=
    catalog_foldl_add (empty options) sources
  have hempty : x ∉ Catalog.empty.names := List.not_mem_nil
  rw [Catalog.mem_exports, hcatalog, Catalog.mem_names_replay, or_iff_left hempty, and_comm,
    List.mem_map]
  simp only [List.mem_flatMap]
  constructor
  · rintro ⟨hx, o, ⟨s, hs, ho⟩, rfl⟩
    exact ⟨hx, s, hs, o, ho, rfl⟩
  · rintro ⟨hx, s, hs, o, ho, rfl⟩
    exact ⟨hx, o, ⟨s, hs, ho⟩, rfl⟩

theorem Sound.keepsExports {b : Batch} (h : Sound b) :
    Shader.KeepsExports b.catalog (b.catalog, b.shaders) :=
  ⟨rfl, h.known⟩

theorem Sound.exports_settled {b : Batch} (h : Sound b) (hb : b.options.humanReadable = false) :
    b.settled.2.exports = b.catalog.exports := by
  obtain ⟨k, hk⟩ := Shader.stripFrom_eq_iterate b.catalog b.catalog b.shaders
  have hkeeps := (h.keepsExports.iterate (k + 1)).exports
  rw [hk] at hkeeps
  rw [settled, hb]
  exact hkeeps

/-- Every header of a finished batch lists the exports that lexing has noted, each once and in
order, by names that tell them apart and that the rename map holds.  The switches are among the
exports, and no number of passes of stripping changes these. -/
theorem exports_published (hh : options.humanReadable = false)
    (sources : List (List Char × List Char)) {m : MinifiedBatch}
    (hm : (ofSources options sources).finish = .ok m) :
    let b := ofSources options sources
    (∀ x, x ∈ m.exports ↔
      isExport x = true ∧ ∃ s ∈ sources, ∃ o ∈ (lex options.unknown s.2).trail, o.name = x) ∧
    m.exports.Pairwise (· < ·) ∧
    m.artifacts.map (fun a => (a.shader, a.exportsHeader.contents)) = b.shaders.map (fun s =>
      (s.name, EmitContext.exportText options.exportPrefix m.names m.exports)) ∧
    (∀ x ∈ m.exports, (x, m.names.nameOf x) ∈ m.names.sorted) ∧
    (∀ x ∈ m.exports, ∀ y ∈ m.exports, m.names.nameOf x = m.names.nameOf y → x = y) ∧
    m.switches ⊆ m.exports ∧
    (∃ k, (Shader.pass b.catalog)^[k + 1] (b.catalog, b.shaders) =
      ((Shader.stripBatch b.catalog b.shaders).catalog,
        (Shader.stripBatch b.catalog b.shaders).shaders)) ∧
    ∀ k, ((Shader.pass b.catalog)^[k] (b.catalog, b.shaders)).1.exports = m.exports := by
  intro b
  have hsound : Sound b := sound_ofSources options sources
  have hoptions : b.options = options := options_ofSources options sources
  have hb : b.options.humanReadable = false := by rw [hoptions, hh]
  have hfinished := finished_of_finish hm
  have hexports : m.exports = b.settled.2.exports := hfinished.exports
  have hlexed : m.exports = b.catalog.exports := hexports.trans (hsound.exports_settled hb)
  have hallocated : RenameTable.allocate b.settled.2 false = .ok m.names :=
    hb ▸ hfinished.allocated
  refine ⟨fun x => ?_, ?_, ?_, ?_, ?_, ?_, ?_, ?_⟩
  · rw [hlexed]
    exact mem_exports_ofSources
  · rw [hexports]
    exact pairwise_sortedSet _
  · rw [← hoptions, hexports, ← map_settled hb fun name => (name,
      EmitContext.exportText b.options.exportPrefix m.names b.settled.2.exports)]
    refine (hfinished.map_artifacts fun s a hs => ?_).symm
    have hcontents := Artifacts.contents_of_render hs
    exact Prod.ext hcontents.1.symm hcontents.2.1.symm
  · intro x hx
    rw [hexports] at hx
    exact RenameTable.mem_sorted_of_mem_names hallocated (Catalog.mem_exports.mp hx).1
  · intro x hx y hy he
    rw [hexports] at hx hy
    exact RenameTable.eq_of_nameOf_eq hallocated hx hy he
  · rw [hexports, hfinished.switches, (settled_false hb).2]
    exact Catalog.switches_subset_exports_recount _ _
  · exact Shader.stripFrom_eq_iterate b.catalog b.catalog b.shaders
  · intro k
    rw [hlexed]
    exact (hsound.keepsExports.iterate k).exports

set_option maxRecDepth 8000 in
/-- A stripped macro, an export in its body and one in a file that fails to lex are published. -/
theorem exports_published_of_dead :
    let sources := [(['a'], "#define @A @B".toList), (['b'], "@C\n#define".toList)]
    let b := ofSources {} sources
    ∃ m, b.finish = .ok m ∧ b.settled.1.map Shader.tokens = [[]] ∧
      ['@', 'A'] ∈ m.exports ∧ ['@', 'B'] ∈ m.exports ∧ ['@', 'C'] ∈ m.exports ∧
      m.exports.Pairwise (· < ·) ∧
      m.artifacts.map (fun a => (a.shader, a.exportsHeader.contents)) =
        [(['a'], EmitContext.exportText "GLSL_".toList m.names m.exports)] := by
  intro sources b
  let first : List Token :=
    [.define ['#', 'd', 'e', 'f', 'i', 'n', 'e', ' ', '@', 'A', ' ', '@', 'B'] 1 ['@', 'A'] none
      (some [.lexeme [' '] 1 .whitespace, .lexeme ['@', 'B'] 1 .identifier])]
  have hb : b = ⟨{}, ⟨[⟨['@', 'B'], 1, 1⟩, ⟨['@', 'A'], 1, 0⟩, ⟨['@', 'C'], 1, 1⟩], []⟩,
      [⟨['a'], first⟩]⟩ := by
    simp only [b, sources, first]
    cbv
  have hsettled : b.settled = ([⟨['a'], []⟩],
      ⟨[⟨['@', 'B'], 0, 0⟩, ⟨['@', 'A'], 0, 0⟩, ⟨['@', 'C'], 0, 0⟩], []⟩) := by
    rw [hb]
    cbv
  have ht : RenameTable.allocate b.settled.2 b.options.humanReadable =
      .ok ⟨[(['@', 'B'], ['A']), (['@', 'A'], ['B']), (['@', 'C'], ['C'])]⟩ := by
    rw [hsettled, hb]
    cbv
  obtain ⟨m, hm⟩ := (sound_ofSources {} sources).finish_isOk ht
  obtain ⟨hexports, hordered, hheaders, -⟩ := exports_published rfl sources hm
  have hfirst : (lex .pass "#define @A @B".toList).trail =
      [.referenced ['@', 'B'], .defined ['@', 'A']] := by cbv
  have hsecond : (lex .pass "@C\n#define".toList).trail = [.referenced ['@', 'C']] := by cbv
  have hshaders : b.shaders = [⟨['a'], first⟩] := by rw [hb]
  refine ⟨m, hm, ?_, ?_, ?_, ?_, hordered, ?_⟩
  · rw [hsettled]
    rfl
  · refine (hexports _).mpr ⟨rfl, _, List.mem_cons_self, .defined ['@', 'A'], ?_, rfl⟩
    exact hfirst ▸ List.mem_cons_of_mem _ List.mem_cons_self
  · refine (hexports _).mpr ⟨rfl, _, List.mem_cons_self, .referenced ['@', 'B'], ?_, rfl⟩
    exact hfirst ▸ List.mem_cons_self
  · refine (hexports _).mpr ⟨rfl, _, List.mem_cons_of_mem _ List.mem_cons_self,
      .referenced ['@', 'C'], ?_, rfl⟩
    exact hsecond ▸ List.mem_cons_self
  · rw [hheaders, hshaders]
    rfl

end Batch

end ShaderPress
