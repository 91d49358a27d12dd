import Mathlib.Data.Set.Function
import ShaderPress.Proofs.Catalog.Names
import ShaderPress.Proofs.Catalog.References
import ShaderPress.Proofs.Token.Sites

/-! # Renaming a catalog

A catalog knows names only by whether they are equal and whether they are exported.  So an
injective renaming of a trail without exports renames the catalog that it leaves, with the
counts, the order of first meeting and the priorities as they were.
-/
namespace ShaderPress

def Entry.rename (f : Ident → Ident) (e : Entry) : Entry := { e with name := f e.name }

namespace Catalog

def rename (f : Ident → Ident) (c : Catalog) : Catalog :=
  ⟨c.entries.map (Entry.rename f), c.switches.map f⟩

variable {f : Ident → Ident} {s : Set Ident}

@[simp] theorem names_rename (c : Catalog) : (c.rename f).names = c.names.map f := by
  simp only [names, rename, List.map_map]
  rfl

theorem bump_rename (hf : Set.InjOn f s) {x : Ident} (hx : x ∈ s) {es : List Entry}
    (hes : ∀ e ∈ es, e.name ∈ s) (references : Nat) :
    bump (f x) references (es.map (Entry.rename f)) =
      (bump x references es).map (Entry.rename f) := by
  induction es with
  | nil => rfl
  | cons e es ih =>
    rw [List.forall_mem_cons] at hes
    by_cases he : e.name = x
    · simp [bump, Entry.rename, he]
    · have hne : f e.name ≠ f x := fun h => he (hf hes.1 hx h)
      simp only [List.map_cons, bump, he, if_false, ← ih hes.2]
      exact if_neg hne

theorem note_rename (hf : Set.InjOn f s) {c : Catalog} (hc : ∀ x ∈ c.names, x ∈ s) {o : Occurrence}
    (ho : o.name ∈ s) (hplain : ∀ x ∈ s, Ident.isExport x = false ∧ Ident.isExport (f x) = false) :
    (c.rename f).note (o.rename f) = (c.note o).rename f := by
  have hentries : ∀ e ∈ c.entries, e.name ∈ s := fun e he => hc _ (List.mem_map_of_mem he)
  have hrecord : ∀ {x : Ident} (isReference : Bool), x ∈ s →
      (c.rename f).record (f x) isReference = (c.record x isReference).rename f :=
    fun isReference hx => congrArg (Catalog.mk · (c.switches.map f)) (bump_rename hf hx hentries _)
  cases o with
  | defined x | referenced x => exact hrecord _ ho
  | tested x =>
    have hx := hplain x ho
    simp only [Occurrence.rename, note, recordSwitch, hx.1, hx.2, Bool.false_eq_true, if_false]
    exact hrecord _ ho

theorem replay_rename (hf : Set.InjOn f s)
    (hplain : ∀ x ∈ s, Ident.isExport x = false ∧ Ident.isExport (f x) = false) {c : Catalog}
    (hc : ∀ x ∈ c.names, x ∈ s) {trail : List Occurrence} (htrail : ∀ o ∈ trail, o.name ∈ s) :
    (c.rename f).replay (trail.map (Occurrence.rename f)) = (c.replay trail).rename f := by
  induction trail generalizing c with
  | nil => rfl
  | cons o trail ih =>
    rw [List.forall_mem_cons] at htrail
    rw [List.map_cons, replay_cons, replay_cons, note_rename hf hc htrail.1 hplain]
    refine ih (fun x hx => ?_) htrail.2
    rcases mem_names_note.mp hx with rfl | hx
    · exact htrail.1
    · exact hc x hx

theorem refersTo_rename (hf : Set.InjOn f s) {o : Occurrence} (ho : o.name ∈ s) {x : Ident}
    (hx : x ∈ s) : (o.rename f).refersTo (f x) = o.refersTo x := by
  cases o with
  | defined y => rfl
  | referenced y | tested y =>
    have heq : f y = f x ↔ y = x := hf.eq_iff ho hx
    simp only [Occurrence.rename, Occurrence.refersTo, Bool.beq_eq_decide_eq, heq]

theorem referenceCount_replay_rename (hf : Set.InjOn f s) {trail : List Occurrence}
    (htrail : ∀ o ∈ trail, o.name ∈ s) {x : Ident} (hx : x ∈ s) :
    (empty.replay (trail.map (Occurrence.rename f))).referenceCount (f x) =
      (empty.replay trail).referenceCount x := by
  rw [referenceCount_replay, referenceCount_replay, List.countP_map]
  refine congrArg (_ + ·) (List.countP_congr fun o ho => ?_)
  rw [Function.comp_apply, refersTo_rename hf (htrail o ho) hx]

theorem byPriority_rename (c : Catalog) :
    (c.rename f).byPriority.map (·.name) = (c.byPriority.map (·.name)).map f := by
  have hsort : (c.rename f).byPriority = c.byPriority.map (Entry.rename f) :=
    (List.map_mergeSort (f := Entry.rename f) fun a _ b _ => rfl).symm
  rw [hsort, List.map_map, List.map_map]
  rfl

/-- A recount keeps nothing of a catalog without exports. -/
theorem recount_of_no_exports {c : Catalog} (h : ∀ x ∈ c.names, Ident.isExport x = false)
    (streams : List (List Token)) :
    c.recount streams = empty.replay (streams.flatMap Token.occurrences) := by
  have hnone : ∀ new, c.vanished new = [] := by
    intro new
    rw [vanished, List.map_eq_nil_iff, List.filter_eq_nil_iff]
    intro x hx
    rw [h x hx, Bool.false_and]
    exact Bool.false_ne_true
  rw [recount, hnone, List.append_nil]

theorem switches_replay {c : Catalog} {trail : List Occurrence}
    (h : ∀ o ∈ trail, Ident.isExport o.name = false) : (c.replay trail).switches = c.switches := by
  induction trail generalizing c with
  | nil => rfl
  | cons o trail ih =>
    rw [List.forall_mem_cons] at h
    refine (ih h.2).trans ?_
    cases o with
    | defined x | referenced x => rfl
    | tested x =>
      have hx : Ident.isExport x = false := h.1
      simp only [note, record, recordSwitch, hx, Bool.false_eq_true, if_false]

theorem nodup_bump {x : Ident} {es : List Entry} (h : (es.map (·.name)).Nodup) (references : Nat) :
    ((bump x references es).map (·.name)).Nodup := by
  induction es with
  | nil => exact List.pairwise_singleton _ x
  | cons e es ih =>
    obtain ⟨he, hes⟩ := List.nodup_cons.mp h
    by_cases hx : e.name = x
    · rw [bump, if_pos hx, List.map_cons, ← hx]
      exact h
    · rw [bump, if_neg hx, List.map_cons, List.nodup_cons, mem_map_name_bump]
      exact ⟨not_or.mpr ⟨hx, he⟩, ih hes⟩

theorem nodup_names_replay {c : Catalog} (h : c.names.Nodup) (trail : List Occurrence) :
    (c.replay trail).names.Nodup := by
  induction trail generalizing c with
  | nil => exact h
  | cons o trail ih =>
    refine ih ?_
    cases o with
    | defined x | referenced x => exact nodup_bump h _
    | tested x =>
      simp only [note, record, names, entries_recordSwitch]
      exact nodup_bump h _

end Catalog

end ShaderPress
