import ShaderPress.Proofs.Catalog.Renaming
import ShaderPress.Proofs.Rename.Words

/-! # Naming what has been named

Names are given by style and priority alone.  A catalog without sigils that is renamed by its
own table keeps its priorities, the reserved names among them and their styles, so naming it
again gives every name to itself.
-/
namespace ShaderPress.RenameTable
open Ident NameStyle Pattern

/-- The name of an identifier; one without a name keeps its spelling. -/
def nameOf (t : RenameTable) (x : Ident) : List Char := (t.get? x).getD x

/-- The table in which every name of a table has itself for its name. -/
def diagonal (t : RenameTable) : RenameTable := ⟨t.entries.map fun p => (p.2, p.2)⟩

theorem get?_diagonal {t : RenameTable} {x : Ident} {name : List Char}
    (h : t.diagonal.get? x = some name) : name = x := by
  obtain ⟨p, -, hp⟩ := List.mem_map.mp (mem_of_lookup h)
  exact (congrArg Prod.snd hp).symm.trans (congrArg Prod.fst hp)

theorem nameOf_of_get? {t : RenameTable} {x : Ident} {name : List Char}
    (h : t.get? x = some name) : t.nameOf x = name := by
  rw [nameOf, h, Option.getD_some]

theorem nameOf_diagonal (t : RenameTable) (x : Ident) : t.diagonal.nameOf x = x := by
  rw [nameOf]
  cases h : t.diagonal.get? x with
  | none => rfl
  | some name => exact get?_diagonal h

/-- Naming generated names of the same styles gives each to itself. -/
theorem generate_map_snd {a : Allocation} {xs : List Ident} {l : List (Ident × List Char)}
    (h : generate a xs = .ok l) (hstyle : ∀ p ∈ l, styleOf p.2 = styleOf p.1) :
    generate a (l.map Prod.snd) = .ok (l.map fun p => (p.2, p.2)) := by
  induction xs generalizing a l with
  | nil =>
    cases h
    rfl
  | cons x xs ih =>
    obtain ⟨name, index, rest, hf, hr, rfl⟩ := generate_cons_eq_ok.mp h
    rw [List.forall_mem_cons] at hstyle
    have hx : styleOf name = styleOf x := hstyle.1
    refine generate_cons_eq_ok.mpr ⟨name, index, _, ?_, ?_, rfl⟩
    · rw [hx, hf]
    · rw [hx]
      exact ih hr hstyle.2

theorem lookup_of_mem {l : List (Ident × List Char)} (hl : (l.map Prod.fst).Nodup)
    {p : Ident × List Char} (hp : p ∈ l) : l.lookup p.1 = some p.2 := by
  induction l with
  | nil => cases hp
  | cons q l ih =>
    obtain ⟨hq, hl⟩ := List.nodup_cons.mp hl
    rcases List.mem_cons.mp hp with rfl | hp
    · exact List.lookup_cons_self
    · have hne : p.1 ≠ q.1 := fun he => hq (he ▸ List.mem_map_of_mem hp)
      rw [List.lookup_cons, beq_false_of_ne hne]
      exact ih hl hp

section
variable {c : Catalog} {t : RenameTable} (h : allocate c false = .ok t)
include h

theorem get?_nameOf {x : Ident} (hx : x ∈ c.names) : t.get? x = some (t.nameOf x) := by
  obtain ⟨name, hn⟩ := Option.isSome_iff_exists.mp (isSome_get? h hx)
  rw [nameOf_of_get? hn, hn]

theorem nameOf_of_renamed {x : Ident} (hx : x ∈ renamed c) :
    t.nameOf x ∉ claimed c ∧ Generated (styleOf x) (t.nameOf x) := by
  obtain ⟨name, hn, hclaimed, hgen⟩ := get?_of_renamed h hx
  rw [nameOf_of_get? hn]
  exact ⟨hclaimed, hgen⟩

theorem isWord_nameOf {x : Ident} (hx : IsWord x) : IsWord (t.nameOf x) := by
  rw [nameOf]
  cases hn : t.get? x with
  | none => exact hx
  | some name => exact isWord_of_get? h (isName_of_isWord hx) hn

variable (hplain : ∀ x ∈ c.names, HasNoSigil x)
include hplain

theorem nameOf_of_kept {x : Ident} (hx : x ∈ kept c) : t.nameOf x = x := by
  rw [nameOf_of_get? (get?_of_kept h hx), literal_of_hasNoSigil (hplain x (mem_kept.mp hx).1)]

theorem hasNoSigil_nameOf {x : Ident} (hx : x ∈ c.names) : HasNoSigil (t.nameOf x) := by
  cases hr : isRenameable x with
  | false =>
    rw [nameOf_of_kept h hplain (mem_kept.mpr ⟨hx, hr⟩)]
    exact hplain x hx
  | true => exact (nameOf_of_renamed h (mem_renamed.mpr ⟨hx, hr⟩)).2.hasNoSigil

/-- Reserved names are kept, and no other identifier gets one. -/
theorem isRenameable_nameOf {x : Ident} (hx : x ∈ c.names) :
    isRenameable (t.nameOf x) = isRenameable x := by
  cases hr : isRenameable x with
  | false => rw [nameOf_of_kept h hplain (mem_kept.mpr ⟨hx, hr⟩), hr]
  | true =>
    rw [isRenameable_of_hasNoSigil (hasNoSigil_nameOf h hplain hx),
      (nameOf_of_renamed h (mem_renamed.mpr ⟨hx, hr⟩)).2.unreserved, Bool.not_false]

theorem injOn_nameOf : Set.InjOn t.nameOf {x | x ∈ c.names} := by
  have apart : ∀ {x y : Ident}, x ∈ renamed c → y ∈ kept c → t.nameOf x ≠ t.nameOf y := by
    intro x y hx hy he
    refine (nameOf_of_renamed h hx).1 ?_
    rw [he, nameOf_of_kept h hplain hy,
      ← literal_of_hasNoSigil (hplain y (mem_kept.mp hy).1)]
    exact literal_mem_claimed hy
  intro x hx y hy he
  cases hrx : isRenameable x with
  | true =>
    have hxr := mem_renamed.mpr ⟨hx, hrx⟩
    cases hry : isRenameable y with
    | true =>
      refine eq_of_get?_eq h hxr (mem_renamed.mpr ⟨hy, hry⟩) (get?_nameOf h hx) ?_
      rw [get?_nameOf h hy, he]
    | false => exact absurd he (apart hxr (mem_kept.mpr ⟨hy, hry⟩))
  | false =>
    have hxk := mem_kept.mpr ⟨hx, hrx⟩
    cases hry : isRenameable y with
    | true => exact absurd he.symm (apart (mem_renamed.mpr ⟨hy, hry⟩) hxk)
    | false =>
      rwa [nameOf_of_kept h hplain hxk, nameOf_of_kept h hplain (mem_kept.mpr ⟨hy, hry⟩)] at he

theorem filter_rename (p : Bool → Bool) :
    (((c.rename t.nameOf).byPriority.map (·.name)).filter fun x => p (isRenameable x)) =
      ((c.byPriority.map (·.name)).filter fun x => p (isRenameable x)).map t.nameOf := by
  rw [Catalog.byPriority_rename, List.filter_map]
  refine congrArg (List.map t.nameOf) (List.filter_congr fun x hx => ?_)
  rw [Function.comp_apply, isRenameable_nameOf h hplain (mem_priority.mp hx)]

theorem kept_rename : kept (c.rename t.nameOf) = kept c := by
  have hmap : (kept c).map t.nameOf = (kept c).map id :=
    List.map_congr_left fun x hx => nameOf_of_kept h hplain hx
  exact (filter_rename h hplain (! ·)).trans (hmap.trans (List.map_id _))

/-- Naming a catalog without sigils that has been renamed by its own table gives every name to
itself. -/
theorem allocate_rename (hswitches : c.switches = []) (hnodup : c.names.Nodup) :
    allocate (c.rename t.nameOf) false = .ok t.diagonal := by
  have hkept := kept_rename h hplain
  have hrenamed : renamed (c.rename t.nameOf) = (renamed c).map t.nameOf :=
    filter_rename h hplain id
  have hclaimed : claimed (c.rename t.nameOf) = claimed c := by
    rw [claimed, claimed, hkept, hswitches]
    simp only [Catalog.rename, hswitches, List.map_nil]
  obtain ⟨generated, hg, rfl⟩ := allocate_false_eq_ok h
  obtain ⟨hfst, -, -⟩ := generate_eq_ok hg
  have hmem : ∀ p ∈ generated, p.1 ∈ renamed c :=
    fun p hp => hfst ▸ List.mem_map_of_mem hp
  have hunique : (generated.map Prod.fst).Nodup := by
    rw [hfst]
    refine List.Nodup.filter _ ?_
    exact ((List.mergeSort_perm _ _).map _).nodup_iff.mpr hnodup
  -- each identifier that is renamed goes over into the name generated for it
  have hsnd : ∀ p ∈ generated, nameOf ⟨literals (kept c) ++ generated⟩ p.1 = p.2 := by
    intro p hp
    have hget := get?_of_mem_renamed (hmem p hp) generated
    exact nameOf_of_get? (hget.trans (lookup_of_mem hunique hp))
  have hmap : (renamed c).map (nameOf ⟨literals (kept c) ++ generated⟩) =
      generated.map Prod.snd := by
    rw [← hfst, List.map_map]
    exact List.map_congr_left hsnd
  have hstyle : ∀ p ∈ generated, styleOf p.2 = styleOf p.1 := by
    intro p hp
    have hp1 := (mem_renamed.mp (hmem p hp)).1
    rw [← hsnd p hp, styleOf, styleOf, (hasNoSigil_nameOf h hplain hp1).1, (hplain p.1 hp1).1]
  rw [allocate_false, hclaimed, hrenamed, hmap, generate_map_snd hg hstyle, hkept]
  refine congrArg Except.ok (congrArg RenameTable.mk ?_)
  have hliterals : literals (kept c) = (literals (kept c)).map fun p => (p.2, p.2) := by
    simp only [literals, List.map_map]
    refine List.map_congr_left fun x hx => ?_
    rw [Function.comp_apply, literal_of_hasNoSigil (hplain x (mem_kept.mp hx).1)]
  rw [List.map_append, ← hliterals]

end

end ShaderPress.RenameTable
