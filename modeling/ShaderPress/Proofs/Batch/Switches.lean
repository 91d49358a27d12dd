import Mathlib
import ShaderPress.Proofs.Batch.Contents
import ShaderPress.Proofs.Catalog.Exports
import ShaderPress.Proofs.Rename.Capture
import ShaderPress.Proofs.Shader.Mentions

/-! # The two sources of a file differ in its switches

Both sources of a file spell one layout, and the identifiers in it are those of the stream but
for the accessors that are respelled.  Where the embedded source has the generated name of a
switch, the offline source has its plain one, and no identifier at all by the generated name.
-/
namespace ShaderPress

namespace Token

theorem canonicalSwizzle?_of_mem_accessors {tokens : List Token} {p : Ident × Ident}
    (hp : p ∈ accessors tokens) : Ident.canonicalSwizzle? p.1 = some p.2 := by
  have hsite := (accessorsAreSites tokens).perm.mem_iff.mp hp
  obtain ⟨⟨followsPoint, o⟩, -, ho⟩ := List.mem_filterMap.mp hsite
  unfold respelling? at ho
  split at ho
  · obtain ⟨swizzle, hs, rfl⟩ := Option.map_eq_some_iff.mp ho
    exact hs
  · cases ho

end Token

namespace EmitContext
open RenameTable
variable {c : Catalog} {t : RenameTable}

/-- Where switches are preserved, nothing goes by the generated name of a switch. -/
theorem nameOf_ne_of_isSwitch (h : allocate c false = .ok t) (options : MinifyOptions)
    {x y : Ident} (hx : x ∈ renamed c) (hs : c.isSwitch x = true) (hy : y ∈ c.names) :
    nameOf ⟨t, c, options⟩ true y ≠ t.nameOf x := by
  have hclaimed := (nameOf_of_renamed h hx).1
  obtain ⟨name, hn, hcases⟩ := spelling_cases h options true hy
  rw [nameOf_eq hn]
  rintro rfl
  rcases hcases with hmem | ⟨hyr, hny⟩
  · exact hclaimed hmem
  · -- an identifier of that name is the switch itself, which goes by its plain name
    obtain rfl := eq_of_get?_eq h hx hyr (get?_nameOf h (mem_renamed.mp hx).1) hny
    rw [spelling_of_isSwitch options ⟨rfl, hs⟩] at hn
    exact hclaimed (Except.ok.inj hn ▸ stripSigil_mem_claimed hs)

end EmitContext

/-- How an offline source spells an identifier: a switch by its plain name, any other by the table. -/
def MinifiedBatch.offlineName (m : MinifiedBatch) (x : Ident) : List Char :=
  if m.switches.contains x then Ident.stripSigil x else m.names.nameOf x

namespace Batch
open Ident Token
variable {b : Batch} {m : MinifiedBatch} {options : MinifyOptions}

theorem mem_switches_settled (hb : b.options.humanReadable = false) {x : Ident} :
    x ∈ b.settled.2.switches ↔
      isExport x = true ∧ ∃ s ∈ b.settled.1, Occurrence.tested x ∈ occurrences s.tokens := by
  rw [(settled_false hb).2]
  refine Catalog.mem_switches_replay.trans ?_
  have hempty : x ∉ Catalog.empty.switches := List.not_mem_nil
  rw [or_iff_right hempty, List.mem_flatMap]
  simp only [List.mem_map, exists_exists_and_eq_and]

theorem Finished.nameOf_true (h : Finished b m) :
    EmitContext.nameOf ⟨m.names, b.settled.2, b.options⟩ true = m.offlineName := by
  funext x
  rw [EmitContext.nameOf_eq_ite, Bool.true_and, Catalog.isSwitch, ← h.switches,
    MinifiedBatch.offlineName]

/-- The two sources of every file spell one sequence of fixed texts and identifiers. -/
theorem sources_differ_in_switches (hh : options.humanReadable = false)
    (sources : List (List Char × List Char)) (hm : (ofSources options sources).finish = .ok m) :
    let b := ofSources options sources
    (∀ x, x ∈ m.switches ↔
      isExport x = true ∧ ∃ s ∈ b.settled.1, Occurrence.tested x ∈ occurrences s.tokens) ∧
    List.Forall₂ (fun s a =>
      let written := layout false s.tokens
      let names := Layout.names written.1
      a.shader = s.name ∧
      names.Sublist (mentioned s.tokens) ∧
      (names ++ (accessors s.tokens).map Prod.fst).Perm (mentioned s.tokens) ∧
      (∀ x ∈ names, (m.names.get? x).isSome = true) ∧
      a.embedded.contents = s.embeddedHead options ++ Layout.spelled m.names.nameOf written.1 ++
        Shader.embeddedTail options written.2 ∧
      a.offline.contents = Layout.spelled m.offlineName written.1) b.settled.1 m.artifacts ∧
    ∀ x ∈ m.switches, isRenameable x = true → ∃ name, m.names.get? x = some name ∧
      ∀ s ∈ b.settled.1, (∀ y ∈ Layout.names (layout false s.tokens).1, m.offlineName y ≠ name) ∧
        ∀ p ∈ accessors s.tokens, p.2 ≠ name := by
  intro b
  have hsound : Sound b := sound_ofSources options sources
  have hoptions : b.options = options := options_ofSources options sources
  have hb : b.options.humanReadable = false := by rw [hoptions, hh]
  have hfinished : Finished b m := finished_of_finish hm
  have hallocated : RenameTable.allocate b.settled.2 false = .ok m.names :=
    hb ▸ hfinished.allocated
  refine ⟨fun x => ?_, ?_, ?_⟩
  · rw [hfinished.switches]
    exact mem_switches_settled hb
  · refine ((List.forall₂_and_left _ _).mpr ⟨fun s hs => hs, hfinished.rendered⟩).imp ?_
    rintro s a ⟨hs, ha⟩
    obtain ⟨hshader, -, hembedded, hoffline⟩ := Artifacts.contents_of_render ha
    rw [EmitContext.nameOf_false] at hembedded
    rw [hfinished.nameOf_true] at hoffline
    rw [hb] at hembedded hoffline
    rw [hoptions] at hembedded
    refine ⟨hshader, Layout.names_layout_sublist s.tokens,
      Layout.names_layout_perm (isComment_of_mem_settled hb hs), fun x hx => ?_, hembedded, hoffline⟩
    rw [← hb] at hx
    exact hsound.isSome_get?_layout hfinished.allocated hs hx
  · intro x hx hr
    rw [hfinished.switches] at hx
    have hxc : x ∈ b.settled.2.names := by
      rw [(settled_false hb).2] at hx ⊢
      exact (Catalog.mem_exports.mp (Catalog.switches_subset_exports_recount _ _ hx)).1
    have hxr := RenameTable.mem_renamed.mpr ⟨hxc, hr⟩
    refine ⟨m.names.nameOf x, RenameTable.get?_nameOf hallocated hxc, fun s hs => ⟨?_, ?_⟩⟩
    · intro y hy
      rw [← hb] at hy
      rw [← hfinished.nameOf_true]
      exact EmitContext.nameOf_ne_of_isSwitch hallocated b.options hxr
        (List.contains_iff_mem.mpr hx) (hsound.names_layout_subset hs hy)
    · intro p hp he
      have hreserved := isReserved_canonicalSwizzle? (canonicalSwizzle?_of_mem_accessors hp)
      rw [he, (RenameTable.nameOf_of_renamed hallocated hxr).2.unreserved] at hreserved
      cases hreserved

set_option maxRecDepth 8000 in
/-- `@A` goes by its plain name in the offline source, which is not the one generated for it. -/
theorem sources_differ_in_switches_of_test :
    let b := ofSources {} [(['a'], "defined(@A)A.rg".toList)]
    let pieces : List Piece := [.fixed Form.definedOpen, .name ['@', 'A'], .fixed [')'],
      .fixed [' '], .name ['A'], .fixed ['.'], .fixed ['x', 'y']]
    ∃ m, b.finish = .ok m ∧ ['@', 'A'] ∈ m.switches ∧
      List.Forall₂ (fun s a =>
        a.embedded.contents = s.embeddedHead {} ++ Layout.spelled m.names.nameOf pieces ++
          Shader.embeddedTail {} false ∧
        a.offline.contents = Layout.spelled m.offlineName pieces) b.settled.1 m.artifacts ∧
      ∃ name, m.names.get? ['@', 'A'] = some name ∧ name ≠ ['A'] := by
  intro b pieces
  let tokens : List Token :=
    [.definedTest ['d', 'e', 'f', 'i', 'n', 'e', 'd', '(', '@', 'A', ')'] 1 ['@', 'A'],
      .lexeme ['A'] 1 .identifier, .lexeme ['.'] 1 .operator, .lexeme ['r', 'g'] 1 .identifier]
  let c : Catalog :=
    ⟨[⟨['@', 'A'], 1, 1⟩, ⟨['A'], 1, 1⟩, ⟨['x', 'y'], 1, 1⟩], [['@', 'A']]⟩
  have hsettled : b.settled = ([⟨['a'], tokens⟩], c) := by
    simp only [b, tokens, c]
    cbv
  have ht : RenameTable.allocate b.settled.2 b.options.humanReadable =
      .ok ⟨[(['x', 'y'], ['x', 'y']), (['@', 'A'], ['B']), (['A'], ['a'])]⟩ := by
    rw [hsettled, options_ofSources]
    simp only [c]
    cbv
  obtain ⟨m, hm⟩ := (sound_ofSources {} _).finish_isOk ht
  obtain ⟨hswitches, hfiles, hfresh⟩ := sources_differ_in_switches rfl _ hm
  have hlayout : layout false tokens = (pieces, false) := by
    simp only [tokens, pieces]
    cbv
  have hswitch : ['@', 'A'] ∈ m.switches := by
    refine (hswitches _).mpr ⟨rfl, ⟨['a'], tokens⟩, ?_, List.mem_cons_self⟩
    exact hsettled ▸ List.mem_singleton_self _
  obtain ⟨name, hname, hother⟩ := hfresh _ hswitch (by cbv)
  refine ⟨m, hm, hswitch, ?_, name, hname, ?_⟩
  · change List.Forall₂ _ b.settled.1 _ at hfiles
    rw [hsettled] at hfiles ⊢
    refine ((List.forall₂_and_left _ _).mpr ⟨fun s hs => hs, hfiles⟩).imp ?_
    rintro s a ⟨hs, -, -, -, -, hembedded, hoffline⟩
    obtain rfl := List.mem_singleton.mp hs
    rw [hlayout] at hembedded hoffline
    exact ⟨hembedded, hoffline⟩
  · have hs : ⟨['a'], tokens⟩ ∈ b.settled.1 := hsettled ▸ List.mem_singleton_self _
    have hplain := (hother _ hs).1 ['@', 'A'] (by
      rw [hlayout]
      exact List.mem_cons_self)
    rw [MinifiedBatch.offlineName, if_pos (List.contains_iff_mem.mpr hswitch)] at hplain
    exact fun he => hplain he.symm

end Batch

end ShaderPress
