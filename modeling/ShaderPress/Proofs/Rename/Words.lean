import ShaderPress.Proofs.Ident.Words
import ShaderPress.Proofs.Rename.Allocation
import ShaderPress.Shader.Artifact

/-! # Output names are words

A generated name is a numbered name of its style, and the others are spellings of the
source without their sigil.  So whatever an identifier is called in either artifact is a
word.
-/
namespace ShaderPress

namespace RenameTable
open NameStyle Pattern

/-- Naming succeeds exactly if a name is found for the first identifier and then for the others. -/
theorem generate_cons_eq_ok {a : Allocation} {x : Ident} {xs : List Ident}
    {l : List (Ident × List Char)} :
    generate a (x :: xs) = .ok l ↔ ∃ name index rest,
      (styleOf x).firstFree? a.isTaken (a.next (styleOf x)) = some (name, index) ∧
        generate (a.take (styleOf x) name index) xs = .ok rest ∧ l = (x, name) :: rest := by
  rw [generate]
  cases hf : (styleOf x).firstFree? a.isTaken (a.next (styleOf x)) with
  | none =>
    constructor
    · intro h
      cases h
    · rintro ⟨_, _, _, h, _⟩
      cases h
  | some p =>
    obtain ⟨name, index⟩ := p
    obtain ⟨-, -, ht⟩ := firstFree?_eq_some hf
    have hu : a.used.contains name = false := by
      simpa using (isTaken_eq_false.mp ht).2
    simp only [hu, Bool.false_eq_true, if_false]
    cases hg : generate (a.take (styleOf x) name index) xs with
    | error e =>
      constructor
      · intro h
        cases h
      · rintro ⟨_, _, _, h, hr, _⟩
        cases h
        rw [hg] at hr
        cases hr
    | ok rest =>
      constructor
      · intro h
        cases h
        exact ⟨name, index, rest, rfl, hg, rfl⟩
      · rintro ⟨_, _, _, h, hr, rfl⟩
        cases h
        rw [hg] at hr
        cases hr
        rfl

theorem exists_nameAt_of_generate {a : Allocation} {xs : List Ident} {l : List (Ident × List Char)}
    (h : generate a xs = .ok l) : ∀ p ∈ l, ∃ index, p.2 = (styleOf p.1).nameAt index := by
  induction xs generalizing a l with
  | nil =>
    cases h
    exact fun p hp => absurd hp List.not_mem_nil
  | cons x xs ih =>
    obtain ⟨name, index, rest, hf, hr, rfl⟩ := generate_cons_eq_ok.mp h
    exact List.forall_mem_cons.mpr ⟨⟨index, (firstFree?_eq_some hf).1⟩, ih hr⟩

theorem isWord_of_get? {c : Catalog} {t : RenameTable} (h : allocate c false = .ok t) {x : Ident}
    (hx : Ident.IsName x) {name : List Char} (hn : t.get? x = some name) : IsWord name := by
  obtain ⟨generated, hg, rfl⟩ := allocate_false_eq_ok h
  rcases List.mem_append.mp (mem_of_lookup hn) with hm | hm
  · obtain ⟨y, -, he⟩ := List.mem_map.mp hm
    cases he
    exact Ident.isWord_literal hx
  · obtain ⟨index, he⟩ := exists_nameAt_of_generate hg _ hm
    change name = _ at he
    rw [he]
    exact isWord_nameAt _ index

theorem mem_names_of_get? {c : Catalog} {t : RenameTable} (h : allocate c false = .ok t) {x : Ident}
    {name : List Char} (hn : t.get? x = some name) : x ∈ c.names := by
  obtain ⟨generated, hg, rfl⟩ := allocate_false_eq_ok h
  rcases List.mem_append.mp (mem_of_lookup hn) with hm | hm
  · obtain ⟨y, hy, he⟩ := List.mem_map.mp hm
    obtain rfl := congrArg Prod.fst he
    exact (mem_kept.mp hy).1
  · have hfst : x ∈ generated.map Prod.fst := List.mem_map_of_mem hm
    rw [(generate_eq_ok hg).1] at hfst
    exact (mem_renamed.mp hfst).1

/-- A word keeps its spelling if it is reserved, or if that happens to be its generated name. -/
theorem eq_self_iff {c : Catalog} {t : RenameTable} (h : allocate c false = .ok t) {w : Ident}
    (hw : Pattern.IsWord w) {name : List Char} (hn : t.get? w = some name) :
    name = w ↔ Ident.isReserved w = true ∨
      w.length ≤ NameStyle.maxLength ∧ t.get? w = some w := by
  have hc : w ∈ c.names := mem_names_of_get? h hn
  have hrenameable := Ident.isRenameable_of_isWord hw
  cases hr : Ident.isReserved w with
  | true =>
    rw [hr] at hrenameable
    have hkept := get?_of_kept h (mem_kept.mpr ⟨hc, hrenameable⟩)
    rw [Ident.literal_of_isWord hw, hn] at hkept
    exact iff_of_true (Option.some.inj hkept) (Or.inl rfl)
  | false =>
    rw [hr] at hrenameable
    obtain ⟨name', hn', -, hgenerated⟩ := get?_of_renamed h (mem_renamed.mpr ⟨hc, hrenameable⟩)
    obtain rfl := Option.some.inj (hn.symm.trans hn')
    rw [or_iff_right Bool.false_ne_true]
    constructor
    · rintro rfl
      exact ⟨hgenerated.short, hn⟩
    · rintro ⟨-, hself⟩
      exact Option.some.inj (hn.symm.trans hself)

end RenameTable

namespace EmitContext
open Pattern

theorem isWord_of_spelling {c : Catalog} {t : RenameTable}
    (h : RenameTable.allocate c false = .ok t) (options : MinifyOptions) {preserve : Bool}
    {x : Ident} (hx : Ident.IsName x) {name : List Char}
    (hn : spelling ⟨t, c, options⟩ preserve x = .ok name) : IsWord name := by
  simp only [spelling, outputName] at hn
  split at hn
  · cases hn
    exact hx
  · cases hget : t.get? x with
    | none =>
      rw [hget] at hn
      cases hn
    | some name' =>
      rw [hget] at hn
      cases hn
      exact RenameTable.isWord_of_get? h hx hget

theorem get?_of_outputName {cx : EmitContext} {x : Ident} {name : List Char}
    (h : cx.outputName x = .ok name) : cx.names.get? x = some name := by
  rw [outputName] at h
  cases hn : cx.names.get? x with
  | none =>
    rw [hn] at h
    cases h
  | some output =>
    rw [hn] at h
    exact congrArg some (Except.ok.inj h)

end EmitContext

end ShaderPress
