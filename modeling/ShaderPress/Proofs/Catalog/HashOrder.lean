import Mathlib
import ShaderPress.Proofs.Catalog.Hashed

/-! # What every catalog in hash maps keeps

A catalog that has been changed step by step holds what the list of entries holds after the same
steps, whatever the maps do about the order of their names.  Hence its maps agree on the names, its
positions are counted up, and its priorities are the one strictly ordered arrangement.
-/
namespace ShaderPress.HashedCatalog
open Catalog
variable {l : HashedCatalog} {c : Catalog} {listing : List (Ident × Nat)}

/-- Some changes of the empty catalog, where the counts are listed in any order at each of them. -/
inductive Runs : List Update → HashedCatalog → Prop
  | empty : Runs [] empty
  | update {updates : List Update} {l l' : HashedCatalog} {listing : List (Ident × Nat)}
      {u : Update} : Runs updates l → listing.Perm l.counts.toList → l.update? listing u = some l' →
      Runs (updates ++ [u]) l'

/-- The position of a name, zero without one. -/
def position (l : HashedCatalog) (name : Ident) : Nat := l.firstSeen.getD name 0

/-- The maps know the same names, at positions that are counted up without a gap.  A name has no
more references than occurrences, and it is an export if it does not occur. -/
structure WellFormed (l : HashedCatalog) : Prop where
  counted_iff : ∀ x, x ∈ l.counts ↔ x ∈ l.firstSeen
  positions : (l.firstSeen.toList.map Prod.snd).Perm (List.range l.counts.size)
  references_le : ∀ x, l.references.getD x 0 ≤ l.counts.getD x 0
  unseen : ∀ x, l.counts[x]? = some 0 → Ident.isExport x = true

/-- All names with their counts, strictly ordered by these and by the positions. -/
structure IsRanking (l : HashedCatalog) (ranking : List (Ident × Nat)) : Prop where
  perm : ranking.Perm l.counts.toList
  pairwise : ranking.Pairwise (Precedes l.position)

theorem Runs.holds {updates : List Update} (h : Runs updates l) : l.Holds (after updates) := by
  induction h with
  | empty => exact holds_empty
  | @update updates l l' listing u _ hlisting hl' ih =>
    obtain ⟨l'', hl'', hholds⟩ := ih.update? (wellFormed_after updates).nodup hlisting u
    rw [hl'] at hl''
    rw [after_concat, Option.some.inj hl'']
    exact hholds

theorem exists_runs (updates : List Update) : ∃ l, Runs updates l := by
  induction updates using List.reverseRecOn with
  | nil => exact ⟨empty, Runs.empty⟩
  | append_singleton updates u ih =>
    obtain ⟨l, hl⟩ := ih
    obtain ⟨l', hl', -⟩ := hl.holds.update? (wellFormed_after updates).nodup (List.Perm.refl _) u
    exact ⟨l', hl.update (List.Perm.refl _) hl'⟩

theorem map_idxOf_eq_range {names : List Ident} (h : names.Nodup) :
    names.map names.idxOf = List.range names.length := by
  apply List.ext_getElem
  · rw [List.length_map, List.length_range]
  · intro i hi _
    rw [List.getElem_map, List.getElem_range]
    exact h.idxOf_getElem i (by rwa [List.length_map] at hi)

theorem Holds.wellFormed (h : l.Holds c) (hc : c.WellFormed) : l.WellFormed := by
  refine ⟨fun x => ?_, ?_, fun x => ?_, fun x hx => ?_⟩
  · rw [h.counts.mem_iff, h.firstSeen.mem_iff]
  · have hpositions := (h.firstSeen.toList_perm hc.nodup).map Prod.snd
    rw [List.map_map] at hpositions
    rw [h.counts.size_eq hc.nodup, ← map_idxOf_eq_range hc.nodup]
    exact hpositions
  · rw [h.references, h.counts.getD count_of_not_mem]
    exact hc.references_le x
  · obtain ⟨hmem, hzero⟩ := (h.counts x 0).mp hx
    exact hc.unseen x hmem hzero.symm

theorem Holds.position_eq (h : l.Holds c) {x : Ident} (hx : x ∈ c.names) :
    l.position x = c.names.idxOf x := by
  rw [position, Std.HashMap.getD_eq_getD_getElem?, h.firstSeen.getElem?_of_mem hx]
  rfl

theorem Holds.toList_perm (h : l.Holds c) (hnodup : c.names.Nodup) :
    l.counts.toList.Perm (c.entries.map Entry.frequency) := by
  rw [map_frequency_eq hnodup]
  exact h.counts.toList_perm hnodup

/-- However the counts are listed, sorting them gives the priorities of the catalog. -/
theorem Holds.byPriority?_eq (h : l.Holds c) (hnodup : c.names.Nodup)
    (hlisting : listing.Perm l.counts.toList) :
    l.byPriority? listing = some (c.byPriority.map Entry.frequency) := by
  have hranked := ranked_eq_byPriority hnodup (hlisting.trans (h.toList_perm hnodup))
  have hstandings := h.standings?_eq fun a ha => h.mem_names hnodup hlisting ha
  rw [HashedCatalog.byPriority?, hstandings, ← hranked]
  rfl

/-- The positions are apart, so the priorities are strictly ordered by them. -/
theorem Holds.isRanking (h : l.Holds c) (hnodup : c.names.Nodup) :
    l.IsRanking (c.byPriority.map Entry.frequency) := by
  have hlisting := List.Perm.refl l.counts.toList
  have hnames := h.map_fst_perm hnodup hlisting
  have hinj : Set.InjOn l.position {x | x ∈ l.counts.toList.map Prod.fst} := by
    intro x hx y hy hxy
    have hx' := hnames.mem_iff.mp hx
    rw [h.position_eq hx', h.position_eq (hnames.mem_iff.mp hy)] at hxy
    exact (List.idxOf_inj hx').mp hxy
  have hranked : ranked l.position l.counts.toList = c.byPriority.map Entry.frequency := by
    rw [← ranked_eq_byPriority hnodup (h.toList_perm hnodup)]
    exact ranked_congr fun a ha => h.position_eq (h.mem_names hnodup hlisting ha)
  rw [← hranked]
  exact ⟨ranked_perm _ _, pairwise_ranked (hnames.nodup_iff.mpr hnodup) hinj⟩

theorem IsRanking.eq {ranking ranking' : List (Ident × Nat)} (h : l.IsRanking ranking)
    (h' : l.IsRanking ranking') : ranking = ranking' :=
  eq_of_pairwise_precedes (h.perm.trans h'.perm.symm) h.pairwise h'.pairwise

/-- Every sequence of changes goes through, in whatever order the counts are listed meanwhile, and
leaves a well-formed catalog that holds what the list of entries holds.  It can be changed further,
and its priorities are the only strictly ordered arrangement of its names. -/
theorem runs_wellFormed (updates : List Update) :
    (∃ l, Runs updates l) ∧ ∀ l, Runs updates l →
      l.WellFormed ∧ l.Holds (after updates) ∧
      (∀ listing, listing.Perm l.counts.toList → ∀ u, ∃ l', l.update? listing u = some l') ∧
      ∃ ranking, ranking = (after updates).byPriority.map Entry.frequency ∧ l.IsRanking ranking ∧
        (∀ other, l.IsRanking other → other = ranking) ∧
        ∀ listing, listing.Perm l.counts.toList → l.byPriority? listing = some ranking := by
  refine ⟨exists_runs updates, fun l hl => ?_⟩
  have hc := wellFormed_after updates
  have hranking := hl.holds.isRanking hc.nodup
  refine ⟨hl.holds.wellFormed hc, hl.holds, fun listing hlisting u => ?_, _, rfl, hranking,
    fun other hother => hother.eq hranking, fun listing hlisting => ?_⟩
  · obtain ⟨l', hl', -⟩ := hl.holds.update? hc.nodup hlisting u
    exact ⟨l', hl'⟩
  · exact hl.holds.byPriority?_eq hc.nodup hlisting

/-- Names that occur as often keep the order of the streams, and an export that has vanished from
them comes last; a name that has vanished is gone. -/
theorem runs_wellFormed_of_vanished :
    let updates : List Update := [.record ['@', 'A'] false, .recordSwitch ['@', 'A'],
      .record ['z'] true,
      .recount [[.lexeme ['y'] 1 .identifier, .lexeme ['x'] 1 .identifier]]]
    ∃ l, Runs updates l ∧ l.counts[['@', 'A']]? = some 0 ∧ ['z'] ∉ l.counts ∧
      (∃ l', l.update? l.counts.toList.reverse (.recount []) = some l') ∧
      l.byPriority? l.counts.toList.reverse = some [(['y'], 1), (['x'], 1), (['@', 'A'], 0)] := by
  intro updates
  obtain ⟨⟨l, hl⟩, hall⟩ := runs_wellFormed updates
  obtain ⟨-, hholds, hupdate, ranking, hranking, -, -, hpriority⟩ := hall l hl
  have hlisting := List.reverse_perm l.counts.toList
  have hnames : (after updates).names = [['y'], ['x'], ['@', 'A']] := by
    simp only [updates]
    cbv
  have hcount : (after updates).count ['@', 'A'] = 0 := by
    simp only [updates]
    cbv
  have hvalue : (after updates).byPriority.map Entry.frequency =
      [(['y'], 1), (['x'], 1), (['@', 'A'], 0)] := by
    simp only [updates]
    cbv
  refine ⟨l, hl, ?_, ?_, hupdate _ hlisting _, ?_⟩
  · rw [hholds.counts.getElem?_of_mem (by simp [hnames]), hcount]
  · rw [hholds.counts.mem_iff, hnames]
    decide
  · rw [hpriority _ hlisting, hranking, hvalue]

end ShaderPress.HashedCatalog
