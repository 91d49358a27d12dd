import ShaderPress.Catalog.Recount
import ShaderPress.Proofs.Token.Depth

/-! # What a catalog counts

An entry holds two figures, the occurrences of a name and how many of them refer to it.
Entering an occurrence raises a figure of its own name by at most one, and those of no
other name.  So a figure is the number of certain occurrences on the trail, and a recount
knows only those of its own streams.  Its switches are the exports that the trail tests.
-/
namespace ShaderPress

namespace Occurrence

/-- A definition of a name does not refer to it. -/
def isReference : Occurrence → Bool
  | defined _ => false
  | referenced _ | tested _ => true

def tested? : Occurrence → Option Ident
  | tested name => some name
  | _ => none

end Occurrence

namespace Catalog

/-- A figure of an entry that an occurrence raises by one if it counts by `kind`. -/
structure Counts (figure : Entry → Nat) (kind : Bool → Bool) : Prop where
  none : ∀ name, figure ⟨name, 0, 0⟩ = 0
  next : ∀ name total references isReference,
    figure ⟨name, total + 1, references + Bool.toNat isReference⟩ =
      figure ⟨name, total, references⟩ + (kind isReference).toNat

theorem counts_total : Counts Entry.total fun _ => true :=
  ⟨fun _ => rfl, fun _ _ _ _ => rfl⟩

theorem counts_references : Counts Entry.references id :=
  ⟨fun _ => rfl, fun _ _ _ _ => rfl⟩

/-- A figure of the entry of a name, which is zero without an entry. -/
def figureOf (figure : Entry → Nat) (es : List Entry) (x : Ident) : Nat :=
  (es.find? (·.name = x)).elim 0 figure

section Unseen
variable {c : Catalog} {added : List Ident} {x : Ident}

/-- The catalog with some names more, which do not occur, behind all others. -/
def withUnseen (c : Catalog) (added : List Ident) : Catalog :=
  { c with entries := c.entries ++ added.map (⟨·, 0, 0⟩) }

theorem withUnseen_nil : c.withUnseen [] = c := by
  rw [withUnseen, List.map_nil, List.append_nil]

theorem withUnseen_withUnseen {name : Ident} :
    (c.withUnseen [name]).withUnseen added = c.withUnseen (name :: added) := by
  simp [withUnseen]

theorem names_withUnseen : (c.withUnseen added).names = c.names ++ added := by
  rw [names, withUnseen, List.map_append, List.map_map]
  exact congrArg (c.names ++ ·) (List.map_id added)

theorem figureOf_withUnseen {figure : Entry → Nat} (hzero : ∀ name, figure ⟨name, 0, 0⟩ = 0) :
    figureOf figure (c.withUnseen added).entries x = figureOf figure c.entries x := by
  rw [figureOf, withUnseen, List.find?_append, figureOf]
  cases c.entries.find? (·.name = x) with
  | some e => rfl
  | none =>
    rw [Option.none_or, List.find?_map]
    cases added.find? _ with
    | none => rfl
    | some name => exact hzero name

theorem count_withUnseen : (c.withUnseen added).count x = c.count x :=
  figureOf_withUnseen counts_total.none

theorem referenceCount_withUnseen : (c.withUnseen added).referenceCount x = c.referenceCount x :=
  figureOf_withUnseen counts_references.none

/-- A recount puts the exports that have vanished behind the names of its streams. -/
theorem recount_eq_withUnseen (c : Catalog) (streams : List (List Token)) :
    c.recount streams =
      let new := empty.replay (streams.flatMap Token.occurrences)
      new.withUnseen (c.names.filter fun x => Ident.isExport x && !new.names.contains x) := rfl

end Unseen

theorem entries_recordSwitch (c : Catalog) (name : Ident) :
    (c.recordSwitch name).entries = c.entries := by
  unfold recordSwitch
  split <;> rfl

section Figures
variable {figure : Entry → Nat} {kind : Bool → Bool} (hf : Counts figure kind)
include hf

theorem Counts.figureOf_bump (name x : Ident) (isReference : Bool) (es : List Entry) :
    figureOf figure (bump name isReference.toNat es) x =
      figureOf figure es x + (kind isReference && name == x).toNat := by
  unfold figureOf
  induction es with
  | nil =>
    have hnew : figure ⟨name, 1, isReference.toNat⟩ = (kind isReference).toNat := by
      have h := hf.next name 0 0 isReference
      rwa [hf.none, Nat.zero_add, Nat.zero_add, Nat.zero_add] at h
    by_cases hx : name = x
    · simp [bump, hx, ← hnew]
    · simp [bump, hx, beq_false_of_ne hx]
  | cons e es ih =>
    by_cases he : e.name = name
    · by_cases hx : name = x
      · subst hx
        subst he
        simp [bump, hf.next]
      · simp [bump, he, hx, beq_false_of_ne hx]
    · by_cases hx : e.name = x
      · subst hx
        simp [bump, he, beq_false_of_ne (Ne.symm he)]
      · simpa [bump, he, hx] using ih

theorem Counts.figureOf_note (c : Catalog) (o : Occurrence) (x : Ident) :
    figureOf figure (c.note o).entries x =
      figureOf figure c.entries x + (kind o.isReference && o.name == x).toNat := by
  cases o with
  | defined name => exact hf.figureOf_bump name x false c.entries
  | referenced name => exact hf.figureOf_bump name x true c.entries
  | tested name =>
    rw [note, record, entries_recordSwitch]
    exact hf.figureOf_bump name x true c.entries

theorem Counts.figureOf_replay (c : Catalog) (trail : List Occurrence) (x : Ident) :
    figureOf figure (c.replay trail).entries x =
      figureOf figure c.entries x + trail.countP fun o => kind o.isReference && o.name == x := by
  induction trail generalizing c with
  | nil => rfl
  | cons o trail ih =>
    rw [replay_cons, ih, hf.figureOf_note, List.countP_cons, Nat.add_assoc]
    cases kind o.isReference && o.name == x <;> simp [Nat.add_comm]

theorem Counts.figureOf_recount (c : Catalog) (streams : List (List Token)) (x : Ident) :
    figureOf figure (c.recount streams).entries x =
      (streams.flatMap Token.occurrences).countP fun o => kind o.isReference && o.name == x := by
  have hempty : figureOf figure empty.entries x = 0 := rfl
  rw [recount_eq_withUnseen, figureOf_withUnseen hf.none, hf.figureOf_replay, hempty, Nat.zero_add]

end Figures

section Switches

/-- Only exports are put among the switches. -/
def enterSwitch (switches : List Ident) (name : Ident) : List Ident :=
  if Ident.isExport name then Ident.insertSorted name switches else switches

theorem switches_recordSwitch (c : Catalog) (name : Ident) :
    (c.recordSwitch name).switches = enterSwitch c.switches name := by
  unfold recordSwitch enterSwitch
  split <;> rfl

/-- The switches go by the names that the trail tests. -/
theorem switches_replay_eq (c : Catalog) (trail : List Occurrence) :
    (c.replay trail).switches = (trail.filterMap Occurrence.tested?).foldl enterSwitch c.switches := by
  induction trail generalizing c with
  | nil => rfl
  | cons o trail ih =>
    rw [replay_cons, ih]
    cases o with
    | defined name | referenced name => rfl
    | tested name =>
      have htested : (.tested name :: trail).filterMap Occurrence.tested? =
          name :: trail.filterMap Occurrence.tested? := rfl
      rw [htested, List.foldl_cons, note, record, switches_recordSwitch]

end Switches

end Catalog

end ShaderPress
