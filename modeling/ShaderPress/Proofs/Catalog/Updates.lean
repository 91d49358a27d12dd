import Mathlib.Data.List.Induction
import ShaderPress.Proofs.Catalog.Exports
import ShaderPress.Proofs.Catalog.Renaming

/-! # What every catalog keeps

A catalog changes by entering a name, by entering a switch and by recounting.  Each change keeps the
names apart, and no name has more references than occurrences.  Only a recount leaves a name
without occurrences, and it does so for exports alone.
-/
namespace ShaderPress

/-- The ways in which a catalog changes. -/
inductive Update where
  | record (name : Ident) (isReference : Bool)
  | recordSwitch (name : Ident)
  | recount (streams : List (List Token))

namespace Catalog

def update (c : Catalog) : Update → Catalog
  | .record name isReference => c.record name isReference
  | .recordSwitch name => c.recordSwitch name
  | .recount streams => c.recount streams

/-- The empty catalog after some changes. -/
def after (updates : List Update) : Catalog := updates.foldl update empty

theorem after_concat (updates : List Update) (u : Update) :
    after (updates ++ [u]) = (after updates).update u := List.foldl_concat ..

variable {c : Catalog} {name x : Ident} {isReference : Bool} {streams : List (List Token)}

theorem count_record : (c.record name isReference).count x = c.count x + (name == x).toNat :=
  counts_total.figureOf_bump name x isReference c.entries

theorem referenceCount_record : (c.record name isReference).referenceCount x =
    c.referenceCount x + (isReference && name == x).toNat :=
  counts_references.figureOf_bump name x isReference c.entries

theorem count_recordSwitch : (c.recordSwitch name).count x = c.count x := by
  rw [count, find?, entries_recordSwitch]
  rfl

theorem referenceCount_recordSwitch :
    (c.recordSwitch name).referenceCount x = c.referenceCount x := by
  rw [referenceCount, find?, entries_recordSwitch]
  rfl

theorem names_recordSwitch : (c.recordSwitch name).names = c.names := by
  rw [names, entries_recordSwitch]
  rfl

/-- A name that is not there yet comes behind the others. -/
theorem names_record : (c.record name isReference).names =
    if name ∈ c.names then c.names else c.names ++ [name] := by
  have hbump : ∀ (references : Nat) (es : List Entry), (bump name references es).map (·.name) =
      if name ∈ es.map (·.name) then es.map (·.name) else es.map (·.name) ++ [name] := by
    intro references es
    induction es with
    | nil => rfl
    | cons e es ih =>
      by_cases he : e.name = name
      · simp [bump, he]
      · have hne : name ≠ e.name := Ne.symm he
        rw [bump, if_neg he, List.map_cons, ih, List.map_cons]
        simp only [List.mem_cons, hne, false_or]
        split <;> rfl
  exact hbump isReference.toNat c.entries

theorem count_of_not_mem (h : x ∉ c.names) : c.count x = 0 := by
  have hnone : c.find? x = none := by
    rw [find?, List.find?_eq_none]
    intro e he hx
    apply h
    exact List.mem_map.mpr ⟨e, he, by simpa using hx⟩
  rw [count, hnone, Option.elim_none]

/-- The catalog lists a name once, counts no more references than occurrences of it, and has names
without occurrences only among the exports. -/
structure WellFormed (c : Catalog) : Prop where
  nodup : c.names.Nodup
  references_le : ∀ x, c.referenceCount x ≤ c.count x
  unseen : ∀ x ∈ c.names, c.count x = 0 → Ident.isExport x = true

theorem wellFormed_empty : empty.WellFormed :=
  ⟨List.nodup_nil, fun _ => Nat.le_refl 0, fun _ hx => absurd hx List.not_mem_nil⟩

theorem WellFormed.record (h : c.WellFormed) (name : Ident) (isReference : Bool) :
    (c.record name isReference).WellFormed := by
  refine ⟨nodup_bump h.nodup _, fun x => ?_, fun x hx hcount => ?_⟩
  · have hle := h.references_le x
    rw [count_record, referenceCount_record]
    cases isReference <;> cases name == x <;> simp <;> omega
  · rw [count_record, Nat.add_eq_zero_iff, Bool.toNat_eq_zero, beq_eq_false_iff_ne] at hcount
    rcases mem_map_name_bump.mp hx with rfl | hx
    · exact absurd rfl hcount.2
    · exact h.unseen x hx hcount.1

theorem WellFormed.recordSwitch (h : c.WellFormed) (name : Ident) :
    (c.recordSwitch name).WellFormed := by
  refine ⟨?_, fun x => ?_, fun x hx hcount => ?_⟩
  · rw [names_recordSwitch]
    exact h.nodup
  · rw [count_recordSwitch, referenceCount_recordSwitch]
    exact h.references_le x
  · rw [names_recordSwitch] at hx
    rw [count_recordSwitch] at hcount
    exact h.unseen x hx hcount

theorem nodup_names_recount (h : c.names.Nodup) : (c.recount streams).names.Nodup := by
  rw [recount_eq_withUnseen, names_withUnseen, List.nodup_append]
  refine ⟨nodup_names_replay (c := empty) List.nodup_nil _, h.filter _, ?_⟩
  rintro x hx y hy rfl
  have hmissing := (List.mem_filter.mp hy).2
  simp [hx] at hmissing

/-- A recount is well-formed if only it starts from distinct names. -/
theorem wellFormed_recount (h : c.names.Nodup) : (c.recount streams).WellFormed := by
  have hcount : ∀ x, (c.recount streams).count x =
      (streams.flatMap Token.occurrences).countP fun o => true && o.name == x :=
    counts_total.figureOf_recount c streams
  have hreferences : ∀ x, (c.recount streams).referenceCount x =
      (streams.flatMap Token.occurrences).countP fun o => id o.isReference && o.name == x :=
    counts_references.figureOf_recount c streams
  refine ⟨nodup_names_recount h, fun x => ?_, fun x hx hzero => ?_⟩
  · rw [hcount, hreferences]
    apply List.countP_mono_left
    intro o ho hx
    exact Bool.and_eq_true_iff.mpr ⟨rfl, (Bool.and_eq_true_iff.mp hx).2⟩
  · rcases mem_names_recount_iff.mp hx with hx | hx
    · obtain ⟨o, ho, rfl⟩ := List.mem_map.mp hx
      rw [hcount, List.countP_eq_zero] at hzero
      exact absurd (by simp) (hzero o ho)
    · exact hx.2

theorem WellFormed.update (h : c.WellFormed) (u : Update) : (c.update u).WellFormed := by
  cases u with
  | record name isReference => exact h.record name isReference
  | recordSwitch name => exact h.recordSwitch name
  | recount streams => exact wellFormed_recount h.nodup

theorem wellFormed_after (updates : List Update) : (after updates).WellFormed := by
  induction updates using List.reverseRecOn with
  | nil => exact wellFormed_empty
  | append_singleton updates u ih =>
    rw [after_concat]
    exact ih.update u

end Catalog

end ShaderPress
