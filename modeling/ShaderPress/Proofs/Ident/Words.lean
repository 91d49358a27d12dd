import ShaderPress.Ident.Sigil
import ShaderPress.Ident.Swizzle
import ShaderPress.Proofs.Ident.Generator
import ShaderPress.Proofs.Token.Plain

/-! # Names as words

A source spells a name as a word with an optional sigil.  Without the sigil, marked as an
export, generated or as a canonical accessor it is a word.
-/
namespace ShaderPress

namespace Ident
open Pattern

def IsName (x : Ident) : Prop := IsWord (stripSigil x)

/-- A name that is neither exported nor pinned. -/
def HasNoSigil (x : Ident) : Prop := isExport x = false ∧ isPinned x = false

theorem stripSigil_of_hasNoSigil {x : Ident} (h : HasNoSigil x) : stripSigil x = x := by
  cases x with
  | nil => rfl
  | cons c x =>
    have hc : (c == '@' || c == '$') = false := Bool.or_eq_false_iff.mpr h
    simp only [stripSigil, hc, Bool.false_eq_true, if_false]

theorem literal_of_hasNoSigil {x : Ident} (h : HasNoSigil x) : literal x = x := by
  rw [literal, h.1, if_neg Bool.false_ne_true, stripSigil_of_hasNoSigil h]

theorem isRenameable_of_hasNoSigil {x : Ident} (h : HasNoSigil x) :
    isRenameable x = !isReserved x := by
  rw [isRenameable, h.2, stripSigil_of_hasNoSigil h, Bool.not_false, Bool.true_and]

theorem isExport_of_isWord {w : List Char} (hw : IsWord w) : isExport w = false := by
  cases w with
  | nil => exact hw.elim
  | cons c w => exact (Bool.or_eq_false_iff.mp (Form.isSigil_of_isIdentStart hw.1)).1

theorem isPinned_of_isWord {w : List Char} (hw : IsWord w) : isPinned w = false := by
  cases w with
  | nil => exact hw.elim
  | cons c w => exact (Bool.or_eq_false_iff.mp (Form.isSigil_of_isIdentStart hw.1)).2

theorem hasNoSigil_of_isWord {w : List Char} (hw : IsWord w) : HasNoSigil w :=
  ⟨isExport_of_isWord hw, isPinned_of_isWord hw⟩

theorem stripSigil_of_isWord {w : List Char} (hw : IsWord w) : stripSigil w = w :=
  stripSigil_of_hasNoSigil (hasNoSigil_of_isWord hw)

theorem isName_of_isWord {w : List Char} (hw : IsWord w) : IsName w := by
  rw [IsName, stripSigil_of_isWord hw]
  exact hw

theorem literal_of_isWord {w : List Char} (hw : IsWord w) : literal w = w :=
  literal_of_hasNoSigil (hasNoSigil_of_isWord hw)

theorem isRenameable_of_isWord {w : List Char} (hw : IsWord w) :
    isRenameable w = !isReserved w :=
  isRenameable_of_hasNoSigil (hasNoSigil_of_isWord hw)

theorem isName_identifier {s : List Char} (h : identifier s ≠ []) : IsName (identifier s) := by
  cases s with
  | nil => exact absurd rfl h
  | cons c s =>
    by_cases hc : (c == '@' || c == '$') = true
    · by_cases hw : word s = []
      · exact absurd (by simp only [identifier, hc, hw, if_true]) h
      · have he : identifier (c :: s) = c :: word s := by
          simp only [identifier, hc, if_true]
        rw [he, IsName, stripSigil, if_pos hc]
        exact isWord_word hw
    · have he : identifier (c :: s) = word (c :: s) := by simp only [identifier, if_neg hc]
      rw [he] at h ⊢
      rw [IsName, stripSigil_of_isWord (isWord_word h)]
      exact isWord_word h

theorem isWord_append {v w : List Char} (hv : IsWord v) (hw : ∀ c ∈ w, isIdentPart c = true) :
    IsWord (v ++ w) := by
  cases v with
  | nil => exact hv.elim
  | cons c v => exact ⟨hv.1, List.forall_mem_append.mpr ⟨hv.2, hw⟩⟩

theorem isIdentPart_of_mem {w : List Char} (hw : IsWord w) : ∀ c ∈ w, isIdentPart c = true := by
  cases w with
  | nil => exact hw.elim
  | cons c w => exact List.forall_mem_cons.mpr ⟨isIdentPart_of_isIdentStart hw.1, hw.2⟩

theorem isWord_literal {x : Ident} (hx : IsName x) : IsWord (literal x) := by
  have hmark : IsWord exportMark := ⟨by decide, List.all_eq_true.mp (by decide)⟩
  unfold literal
  split
  · exact isWord_append hmark (isIdentPart_of_mem hx)
  · exact hx

/-- An accessor respelled has as many letters, all of them components. -/
theorem canonicalSwizzle?_eq_some {x swizzle : Ident} (h : canonicalSwizzle? x = some swizzle) :
    swizzle.length = x.length ∧ (1 ≤ x.length ∧ x.length ≤ 4) ∧ ∀ c ∈ swizzle, c ∈ components := by
  have letters : ∀ {letter? : Char → Option Char}, (∀ c d, letter? c = some d → d ∈ components) →
      ∀ {x swizzle : Ident}, x.mapM letter? = some swizzle →
        swizzle.length = x.length ∧ ∀ c ∈ swizzle, c ∈ components := by
    intro letter? hl x swizzle hm
    induction x generalizing swizzle with
    | nil =>
      cases hm
      exact ⟨rfl, fun c hc => absurd hc List.not_mem_nil⟩
    | cons c x ih =>
      rw [List.mapM_cons] at hm
      obtain ⟨d, hd, hm⟩ := Option.bind_eq_some_iff.mp hm
      obtain ⟨rest, hr, hm⟩ := Option.bind_eq_some_iff.mp hm
      cases hm
      obtain ⟨hlen, hrest⟩ := ih hr
      exact ⟨congrArg (· + 1) hlen, List.forall_mem_cons.mpr ⟨hl c d hd, hrest⟩⟩
  have hcolour : ∀ c d, colourLetter? c = some d → d ∈ components := by
    intro c d hd
    unfold colourLetter? at hd
    split at hd <;> cases hd <;> decide
  have htexture : ∀ c d, textureLetter? c = some d → d ∈ components := by
    intro c d hd
    unfold textureLetter? at hd
    split at hd <;> cases hd <;> decide
  unfold canonicalSwizzle? at h
  split at h
  · next hlen =>
    rcases Option.or_eq_some_iff.mp h with h | ⟨-, h⟩
    · exact ⟨(letters hcolour h).1, hlen, (letters hcolour h).2⟩
    · exact ⟨(letters htexture h).1, hlen, (letters htexture h).2⟩
  · cases h

/-- Accessors in their canonical spelling are reserved. -/
theorem isReserved_canonicalSwizzle? {x swizzle : Ident} (h : canonicalSwizzle? x = some swizzle) :
    isReserved swizzle = true := by
  obtain ⟨hlen, ⟨hone, hfour⟩, hmem⟩ := canonicalSwizzle?_eq_some h
  have hswizzle : isSwizzle swizzle = true := by
    simp only [isSwizzle, hlen, hone, hfour, decide_true, Bool.true_and, List.all_eq_true,
      List.contains_iff_mem]
    exact hmem
  rw [isReserved, hswizzle, Bool.or_true, Bool.true_or, Bool.true_or, Bool.true_or]

/-- A canonical spelling is not itself written otherwise. -/
theorem canonicalSwizzle?_canonical {x swizzle : Ident} (h : canonicalSwizzle? x = some swizzle) :
    canonicalSwizzle? swizzle = none := by
  have hcolour : ∀ c ∈ components, colourLetter? c = none := by simp [components, colourLetter?]
  have htexture : ∀ c ∈ components, textureLetter? c = none := by
    simp [components, textureLetter?]
  obtain ⟨hlen, ⟨hone, -⟩, hmem⟩ := canonicalSwizzle?_eq_some h
  cases swizzle with
  | nil =>
    rw [← hlen] at hone
    exact absurd hone (by decide)
  | cons c swizzle =>
    have hc := hmem c List.mem_cons_self
    simp [canonicalSwizzle?, List.mapM_cons, hcolour c hc, htexture c hc]

theorem isWord_canonicalSwizzle? {x swizzle : Ident} (h : canonicalSwizzle? x = some swizzle) :
    IsWord swizzle := by
  have hcomponents : ∀ c ∈ components, isIdentStart c = true := List.all_eq_true.mp (by decide)
  obtain ⟨hlen, ⟨hone, -⟩, hmem⟩ := canonicalSwizzle?_eq_some h
  cases swizzle with
  | nil =>
    rw [← hlen] at hone
    exact absurd hone (by decide)
  | cons c swizzle =>
    rw [List.forall_mem_cons] at hmem
    exact ⟨hcomponents c hmem.1,
      fun d hd => isIdentPart_of_isIdentStart (hcomponents d (hmem.2 d hd))⟩

end Ident

namespace NameStyle
open Pattern

theorem isWord_nameAt (style : NameStyle) (index : Nat) : IsWord (style.nameAt index) := by
  have hfirst : ∀ style : NameStyle, style.generator.first.all isIdentStart = true := by
    intro style
    cases style <;> decide
  obtain ⟨c, hc, he⟩ := NameGenerator.exists_nameAt_eq_cons style.generator_first_ne index
  rw [nameAt, he]
  refine ⟨List.all_eq_true.mp (hfirst style) c hc, fun d hd => ?_⟩
  exact isIdentPart_of_mem_alphabets (Or.inr (NameGenerator.mem_of_mem_digits hd))

theorem Generated.hasNoSigil {style : NameStyle} {name : List Char} (h : Generated style name) :
    Ident.HasNoSigil name := by
  have hletter : ∀ c, isIdentPart c = false → name.head? ≠ some c := by
    intro c hc hhead
    have hpart := h.letters c (List.mem_of_mem_head? hhead)
    rw [hc] at hpart
    cases hpart
  exact ⟨beq_false_of_ne (hletter '@' (by decide)), beq_false_of_ne (hletter '$' (by decide))⟩

end NameStyle

end ShaderPress
