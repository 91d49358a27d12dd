import Mathlib.Data.List.Nodup
import ShaderPress.Rename.Table
import ShaderPress.Proofs.Ident.Generator

/-! # What the rename table holds

Identifiers that keep their spelling claim it before any name is generated, and every
generated name is put among the used ones before the next is sought.  So a generated
name is none of the spellings claimed first and none of the names generated before.
The only failure is that no short name is left.
-/
namespace ShaderPress.RenameTable
open NameStyle

@[simp] theorem used_take (a : Allocation) (style : NameStyle) (name : List Char) (index : Nat) :
    (a.take style name index).used = name :: a.used := by
  cases style <;> rfl

theorem isTaken_eq_false {a : Allocation} {name : List Char} :
    a.isTaken name = false ↔ Ident.isReserved name = false ∧ name ∉ a.used := by
  simp [Allocation.isTaken]

/-- Naming one more identifier: a free name is found and used up, or none is left. -/
theorem generate_cons (a : Allocation) (x : Ident) (xs : List Ident) :
    (∃ name index, Generated (styleOf x) name ∧ name ∉ a.used ∧
      generate a (x :: xs) =
        (generate (a.take (styleOf x) name index) xs).map ((x, name) :: ·)) ∨
    generate a (x :: xs) = .error (.nameSpaceExhausted x maxLength) := by
  cases hf : (styleOf x).firstFree? a.isTaken (a.next (styleOf x)) with
  | none => exact Or.inr (by simp only [generate, hf])
  | some p =>
    obtain ⟨name, index⟩ := p
    obtain ⟨rfl, hl, ht⟩ := firstFree?_eq_some hf
    obtain ⟨hr, hu⟩ := isTaken_eq_false.mp ht
    refine Or.inl ⟨_, index, generated_nameAt hr hl, hu, ?_⟩
    simp only [generate, hf, List.contains_iff_mem, hu, if_false]
    cases generate (a.take (styleOf x) ((styleOf x).nameAt index) index) xs <;> rfl

/-- What naming a list of identifiers gives: a name for each, all distinct and none used before. -/
theorem generate_eq_ok {a : Allocation} {xs : List Ident} {l : List (Ident × List Char)}
    (h : generate a xs = .ok l) :
    l.map Prod.fst = xs ∧ (l.map Prod.snd).Nodup ∧
      ∀ p ∈ l, p.2 ∉ a.used ∧ Generated (styleOf p.1) p.2 := by
  induction xs generalizing a l with
  | nil =>
    cases h
    simp
  | cons x xs ih =>
    rcases generate_cons a x xs with ⟨name, index, hg, hu, he⟩ | he
    · rw [he] at h
      cases hr : generate (a.take (styleOf x) name index) xs with
      | error e =>
        rw [hr] at h
        cases h
      | ok rest =>
        rw [hr] at h
        cases h
        obtain ⟨hfst, hnodup, hall⟩ := ih hr
        simp only [used_take, List.mem_cons, not_or] at hall
        refine ⟨by simp [hfst], ?_, ?_⟩
        · refine List.nodup_cons.mpr ⟨?_, hnodup⟩
          intro hmem
          obtain ⟨p, hp, hpn⟩ := List.mem_map.mp hmem
          exact (hall p hp).1.1 hpn
        · intro p hp
          rcases List.mem_cons.mp hp with rfl | hp
          · exact ⟨hu, hg⟩
          · exact ⟨(hall p hp).1.2, (hall p hp).2⟩
    · rw [he] at h
      cases h

theorem generate_eq_error {a : Allocation} {xs : List Ident} {e : NamingError}
    (h : generate a xs = .error e) : ∃ x, e = .nameSpaceExhausted x maxLength := by
  induction xs generalizing a with
  | nil => cases h
  | cons x xs ih =>
    rcases generate_cons a x xs with ⟨name, index, _, _, he⟩ | he
    · rw [he] at h
      cases hr : generate (a.take (styleOf x) name index) xs with
      | ok l =>
        rw [hr] at h
        cases h
      | error e' =>
        rw [hr] at h
        cases h
        exact ih hr
    · rw [he] at h
      cases h
      exact ⟨x, rfl⟩

theorem mem_priority {c : Catalog} {x : Ident} : x ∈ c.byPriority.map (·.name) ↔ x ∈ c.names := by
  simp [Catalog.byPriority, Catalog.names]

theorem lookup_literals (names : List Ident) (x : Ident) :
    (literals names).lookup x = if x ∈ names then some (Ident.literal x) else none := by
  induction names with
  | nil => rfl
  | cons y ys ih =>
    by_cases hxy : x = y
    · simp [literals, hxy]
    · rw [literals, List.map_cons, List.lookup_cons, beq_false_of_ne hxy]
      simpa [literals, hxy] using ih

theorem get?_of_allocate_true {c : Catalog} {t : RenameTable} (h : allocate c true = .ok t)
    {x : Ident} (hx : x ∈ c.names) : t.get? x = some (Ident.literal x) := by
  cases h
  simp only [get?, lookup_literals, mem_priority, hx, if_true]

def renamed (c : Catalog) : List Ident := (c.byPriority.map (·.name)).filter Ident.isRenameable

def kept (c : Catalog) : List Ident := (c.byPriority.map (·.name)).filter (!Ident.isRenameable ·)

/-- The spellings that are claimed before any name is generated. -/
def claimed (c : Catalog) : List (List Char) :=
  (literals (kept c)).map (·.2) ++ c.switches.map Ident.stripSigil

theorem allocate_false (c : Catalog) :
    allocate c false = (generate ⟨claimed c, 0, 0⟩ (renamed c)).map
      fun generated => ⟨literals (kept c) ++ generated⟩ := by
  rw [allocate, if_neg Bool.false_ne_true]
  change (generate ⟨claimed c, 0, 0⟩ (renamed c) >>= _) = _
  cases generate ⟨claimed c, 0, 0⟩ (renamed c) <;> rfl

theorem mem_renamed {c : Catalog} {x : Ident} :
    x ∈ renamed c ↔ x ∈ c.names ∧ Ident.isRenameable x = true := by
  rw [renamed, List.mem_filter, mem_priority]

theorem mem_kept {c : Catalog} {x : Ident} :
    x ∈ kept c ↔ x ∈ c.names ∧ Ident.isRenameable x = false := by
  rw [kept, List.mem_filter, mem_priority, Bool.not_eq_true']

theorem literal_mem_claimed {c : Catalog} {x : Ident} (hx : x ∈ kept c) :
    Ident.literal x ∈ claimed c := by
  refine List.mem_append_left _ (List.mem_map.mpr ⟨(x, Ident.literal x), ?_, rfl⟩)
  exact List.mem_map_of_mem hx

theorem stripSigil_mem_claimed {c : Catalog} {x : Ident} (hx : c.isSwitch x = true) :
    Ident.stripSigil x ∈ claimed c :=
  List.mem_append_right _ (List.mem_map_of_mem (List.contains_iff_mem.mp hx))

/-- The only failure of naming is that no short name is left. -/
theorem allocate_eq_error {c : Catalog} {humanReadable : Bool} {e : NamingError}
    (h : allocate c humanReadable = .error e) : ∃ x, e = .nameSpaceExhausted x maxLength := by
  cases humanReadable with
  | true => cases h
  | false =>
    rw [allocate_false] at h
    cases hg : generate ⟨claimed c, 0, 0⟩ (renamed c) with
    | ok generated =>
      rw [hg] at h
      cases h
    | error e' =>
      rw [hg] at h
      cases h
      exact generate_eq_error hg

theorem allocate_false_eq_ok {c : Catalog} {t : RenameTable} (h : allocate c false = .ok t) :
    ∃ generated, generate ⟨claimed c, 0, 0⟩ (renamed c) = .ok generated ∧
      t = ⟨literals (kept c) ++ generated⟩ := by
  rw [allocate_false] at h
  cases hg : generate ⟨claimed c, 0, 0⟩ (renamed c) with
  | error e =>
    rw [hg] at h
    cases h
  | ok generated =>
    rw [hg] at h
    cases h
    exact ⟨generated, rfl, rfl⟩

theorem get?_of_mem_renamed {c : Catalog} {x : Ident} (hx : x ∈ renamed c)
    (generated : List (Ident × List Char)) :
    get? ⟨literals (kept c) ++ generated⟩ x = generated.lookup x := by
  have hk : x ∉ kept c := by
    intro hk
    rw [mem_kept, (mem_renamed.mp hx).2] at hk
    exact absurd hk.2 (by decide)
  simp only [get?, List.lookup_append, lookup_literals, hk, if_false, Option.none_or]

theorem mem_of_lookup {l : List (Ident × List Char)} {x : Ident} {name : List Char}
    (h : l.lookup x = some name) : (x, name) ∈ l := by
  obtain ⟨l₁, l₂, rfl, -⟩ := List.lookup_eq_some_iff.mp h
  simp

theorem get?_of_kept {c : Catalog} {t : RenameTable} (h : allocate c false = .ok t) {x : Ident}
    (hx : x ∈ kept c) : t.get? x = some (Ident.literal x) := by
  obtain ⟨generated, -, rfl⟩ := allocate_false_eq_ok h
  simp only [get?, List.lookup_append, lookup_literals, hx, if_true, Option.some_or]

/-- A renamed identifier has a generated name, which was not claimed before. -/
theorem get?_of_renamed {c : Catalog} {t : RenameTable} (h : allocate c false = .ok t) {x : Ident}
    (hx : x ∈ renamed c) :
    ∃ name, t.get? x = some name ∧ name ∉ claimed c ∧ Generated (styleOf x) name := by
  obtain ⟨generated, hg, rfl⟩ := allocate_false_eq_ok h
  obtain ⟨hfst, -, hall⟩ := generate_eq_ok hg
  have hs : (generated.lookup x).isSome = true := by
    obtain ⟨p, hp, he⟩ := List.mem_map.mp (hfst.symm ▸ hx)
    exact List.lookup_isSome_iff.mpr ⟨p, hp, by simp [he]⟩
  obtain ⟨name, hn⟩ := Option.isSome_iff_exists.mp hs
  exact ⟨name, (get?_of_mem_renamed hx generated).trans hn, hall _ (mem_of_lookup hn)⟩

/-- A name in the table is the identifier's own spelling or a generated one. -/
theorem get?_cases {c : Catalog} {t : RenameTable} (h : allocate c false = .ok t) {x : Ident}
    {name : List Char} (hn : t.get? x = some name) :
    name = Ident.literal x ∨ Generated (styleOf x) name := by
  obtain ⟨generated, hg, rfl⟩ := allocate_false_eq_ok h
  rcases List.mem_append.mp (mem_of_lookup hn) with hm | hm
  · obtain ⟨y, -, he⟩ := List.mem_map.mp hm
    cases he
    exact Or.inl rfl
  · exact Or.inr ((generate_eq_ok hg).2.2 _ hm).2

theorem eq_of_get?_eq {c : Catalog} {t : RenameTable} (h : allocate c false = .ok t)
    {x y : Ident} (hx : x ∈ renamed c) (hy : y ∈ renamed c) {name : List Char}
    (hnx : t.get? x = some name) (hny : t.get? y = some name) : x = y := by
  obtain ⟨generated, hg, rfl⟩ := allocate_false_eq_ok h
  obtain ⟨-, hnodup, -⟩ := generate_eq_ok hg
  rw [get?_of_mem_renamed hx] at hnx
  rw [get?_of_mem_renamed hy] at hny
  exact congrArg Prod.fst
    (List.inj_on_of_nodup_map hnodup (mem_of_lookup hnx) (mem_of_lookup hny) rfl)

theorem isSome_get? {c : Catalog} {humanReadable : Bool} {t : RenameTable}
    (h : allocate c humanReadable = .ok t) {x : Ident} (hx : x ∈ c.names) :
    (t.get? x).isSome = true := by
  cases humanReadable with
  | true => rw [get?_of_allocate_true h hx, Option.isSome_some]
  | false =>
    cases hr : Ident.isRenameable x with
    | true =>
      obtain ⟨name, hn, -⟩ := get?_of_renamed h (mem_renamed.mpr ⟨hx, hr⟩)
      rw [hn, Option.isSome_some]
    | false => rw [get?_of_kept h (mem_kept.mpr ⟨hx, hr⟩), Option.isSome_some]

end ShaderPress.RenameTable
