import ShaderPress.Proofs.Catalog.Counts
import ShaderPress.Proofs.Catalog.Names
import ShaderPress.Proofs.Ident.Order
import ShaderPress.Proofs.Ident.Words
import ShaderPress.Proofs.Token.Sites

/-! # Exports survive a recount

An accessor that is respelled is a word, so no export appears or goes by it.  A recount
keeps the exports that have vanished, and thus has the exports of the catalog before as
long as its streams mention no other.  A switch is an export that is tested in them.
-/
namespace ShaderPress.Catalog
open Ident Token
variable {c : Catalog} {streams : List (List Token)} {x : Ident}

theorem mem_enterSwitch {switches : List Ident} {name : Ident} :
    x ∈ enterSwitch switches name ↔ x ∈ switches ∨ isExport x = true ∧ x = name := by
  unfold enterSwitch
  split
  · next hname =>
    rw [mem_insertSorted, or_comm]
    refine or_congr_right ⟨?_, And.right⟩
    rintro rfl
    exact ⟨hname, rfl⟩
  · next hname =>
    refine ⟨Or.inl, Or.rec id ?_⟩
    rintro ⟨hx, rfl⟩
    exact absurd hx hname

theorem mem_foldl_enterSwitch {names switches : List Ident} :
    x ∈ names.foldl enterSwitch switches ↔ x ∈ switches ∨ isExport x = true ∧ x ∈ names := by
  induction names generalizing switches with
  | nil => simp
  | cons name names ih =>
    have hsplit : isExport x = true ∧ x ∈ name :: names ↔
        isExport x = true ∧ x = name ∨ isExport x = true ∧ x ∈ names := by
      rw [List.mem_cons, and_or_left]
    rw [List.foldl_cons, ih, mem_enterSwitch, hsplit, or_assoc]

/-- The switches are the exports that have been tested. -/
theorem mem_switches_replay {trail : List Occurrence} :
    x ∈ (c.replay trail).switches ↔
      x ∈ c.switches ∨ isExport x = true ∧ Occurrence.tested x ∈ trail := by
  have htested : Occurrence.tested x ∈ trail ↔ x ∈ trail.filterMap Occurrence.tested? := by
    rw [List.mem_filterMap]
    refine ⟨fun h => ⟨_, h, rfl⟩, ?_⟩
    rintro ⟨o, ho, hx⟩
    cases o with
    | tested name =>
      obtain rfl := Option.some.inj hx
      exact ho
    | _ => cases hx
  rw [switches_replay_eq, mem_foldl_enterSwitch, htested]

theorem mem_names_vanished {old new : Catalog} :
    x ∈ (old.vanished new).map (·.name) ↔
      (x ∈ old.names ∧ isExport x = true) ∧ x ∉ new.names := by
  simp [vanished, Function.comp_def, and_assoc]

/-- A recount knows the names of its streams and the exports known before. -/
theorem mem_names_recount_iff : x ∈ (c.recount streams).names ↔
    x ∈ (streams.flatMap occurrences).map Occurrence.name ∨ x ∈ c.names ∧ isExport x = true := by
  have hnew : x ∈ (empty.replay (streams.flatMap occurrences)).names ↔
      x ∈ (streams.flatMap occurrences).map Occurrence.name := by
    rw [mem_names_replay]
    exact or_iff_left List.not_mem_nil
  rw [recount, names, List.map_append, List.mem_append, mem_names_vanished, ← hnew]
  refine ⟨Or.imp_right And.left, fun h => ?_⟩
  by_cases hx : x ∈ (empty.replay (streams.flatMap occurrences)).names
  · exact Or.inl hx
  · exact Or.inr ⟨h.resolve_left hx, hx⟩

theorem isExport_written {followsPoint : Bool} (hx : isExport (written followsPoint x) = true) :
    written followsPoint x = x := by
  unfold written at hx ⊢
  split
  · next hpoint =>
    rw [if_pos hpoint] at hx
    cases hs : canonicalSwizzle? x with
    | none => rfl
    | some swizzle =>
      rw [hs, Option.getD_some, isExport_of_isWord (isWord_canonicalSwizzle? hs)] at hx
      cases hx
  · rfl

/-- An export that counts in a stream is mentioned there. -/
theorem mem_mentioned_of_isExport {tokens : List Token} {o : Occurrence}
    (ho : o ∈ occurrences tokens) (hx : isExport o.name = true) : o.name ∈ mentioned tokens := by
  rw [occurrences_eq_sites] at ho
  obtain ⟨p, hp, rfl⟩ := List.mem_map.mp ho
  rw [Occurrence.name_rename] at hx ⊢
  rw [isExport_written hx]
  exact name_mem_mentioned false p hp

theorem exports_recount (h : ∀ tokens ∈ streams, mentioned tokens ⊆ c.names) :
    (c.recount streams).exports = c.exports := by
  refine sortedSet_congr fun x => ?_
  rw [List.mem_filter, List.mem_filter, mem_names_recount_iff]
  refine ⟨?_, fun hx => ⟨Or.inr hx, hx.2⟩⟩
  rintro ⟨hx | hx, hexport⟩
  · obtain ⟨o, ho, rfl⟩ := List.mem_map.mp hx
    obtain ⟨tokens, ht, ho⟩ := List.mem_flatMap.mp ho
    exact ⟨h tokens ht (mem_mentioned_of_isExport ho hexport), hexport⟩
  · exact hx

theorem switches_subset_exports_recount (c : Catalog) (streams : List (List Token)) :
    (c.recount streams).switches ⊆ (c.recount streams).exports := by
  intro x hx
  have hswitches : (c.recount streams).switches =
      (empty.replay (streams.flatMap occurrences)).switches := rfl
  rw [hswitches, mem_switches_replay] at hx
  rcases hx with hx | ⟨hexport, htested⟩
  · cases hx
  · refine mem_exports.mpr ⟨mem_names_recount_iff.mpr (Or.inl ?_), hexport⟩
    exact List.mem_map.mpr ⟨_, htested, rfl⟩

end ShaderPress.Catalog
