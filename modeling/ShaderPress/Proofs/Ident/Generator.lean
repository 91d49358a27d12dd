import ShaderPress.Ident.Generator
import ShaderPress.Ident.Reserved
import ShaderPress.Token.Pattern

/-! # The shape of generated names

The letters of a generated name come from the two alphabets of its style, so a name
never starts with an underscore, and an upper-case one holds capitals and underscores
only.  The search for a free name returns one that is short enough and not taken.
-/
namespace ShaderPress

namespace NameGenerator

theorem mem_of_mem_digits {alphabet : List Char} {n : Nat} {c : Char}
    (hc : c ∈ digits alphabet n) : c ∈ alphabet := by
  fun_induction digits alphabet n with
  | case1 n h => simp at hc
  | case2 n h hlt hdiv ih =>
    rcases List.mem_cons.mp hc with rfl | hc
    · exact List.getElem_mem hlt
    · exact ih hc

theorem exists_nameAt_eq_cons {g : NameGenerator} (hf : g.first ≠ []) (index : Nat) :
    ∃ c ∈ g.first, g.nameAt index = c :: digits g.continuation (index / g.first.length) := by
  have hm : index % g.first.length < g.first.length :=
    Nat.mod_lt _ (List.length_pos_iff.2 hf)
  exact ⟨_, List.getElem_mem hm, by simp [nameAt, List.getElem?_eq_getElem hm]⟩

end NameGenerator

namespace NameStyle

theorem head_nameAt (style : NameStyle) (index : Nat) :
    ∃ c ∈ style.generator.first, (style.nameAt index).head? = some c := by
  obtain ⟨c, hc, he⟩ := NameGenerator.exists_nameAt_eq_cons style.generator_first_ne index
  exact ⟨c, hc, by rw [nameAt, he, List.head?_cons]⟩

theorem mem_alphabets {style : NameStyle} {index : Nat} {c : Char} (hc : c ∈ style.nameAt index) :
    c ∈ style.generator.first ∨ c ∈ style.generator.continuation := by
  obtain ⟨d, hd, he⟩ := NameGenerator.exists_nameAt_eq_cons style.generator_first_ne index
  rw [nameAt, he] at hc
  rcases List.mem_cons.mp hc with rfl | hc
  · exact Or.inl hd
  · exact Or.inr (NameGenerator.mem_of_mem_digits hc)

theorem underscore_not_mem_first (style : NameStyle) : '_' ∉ style.generator.first := by
  cases style <;> decide

theorem isIdentPart_of_mem_alphabets {style : NameStyle} {c : Char}
    (hc : c ∈ style.generator.first ∨ c ∈ style.generator.continuation) :
    Pattern.isIdentPart c = true := by
  have hall : ∀ style : NameStyle,
      (style.generator.first ++ style.generator.continuation).all Pattern.isIdentPart = true := by
    intro style
    cases style <;> decide
  exact List.all_eq_true.mp (hall style) c (List.mem_append.mpr hc)

theorem isUpper_of_mem_alphabets {c : Char}
    (hc : c ∈ upperCase.generator.first ∨ c ∈ upperCase.generator.continuation) :
    c.isUpper = true ∨ c = '_' := by
  have hall : (upperCase.generator.first ++ upperCase.generator.continuation).all
      (fun c => c.isUpper || c == '_') = true := by decide
  simpa using List.all_eq_true.mp hall c (List.mem_append.mpr hc)

/-- What a generated name of a style looks like. -/
structure Generated (style : NameStyle) (name : List Char) : Prop where
  unreserved : Ident.isReserved name = false
  nonempty : 1 ≤ name.length
  short : name.length ≤ maxLength
  start : name.head? ≠ some '_'
  letters : ∀ c ∈ name, Pattern.isIdentPart c = true
  upper : style = .upperCase → ∀ c ∈ name, c.isUpper = true ∨ c = '_'

theorem generated_nameAt {style : NameStyle} {index : Nat}
    (hr : Ident.isReserved (style.nameAt index) = false)
    (hl : (style.nameAt index).length ≤ maxLength) : Generated style (style.nameAt index) := by
  obtain ⟨c, hc, he⟩ := head_nameAt style index
  refine ⟨hr, ?_, hl, ?_, fun d hd => isIdentPart_of_mem_alphabets (mem_alphabets hd), ?_⟩
  · exact List.length_pos_iff.mpr (List.ne_nil_of_mem (List.mem_of_mem_head? he))
  · intro h
    rw [he] at h
    exact underscore_not_mem_first style (Option.some.inj h ▸ hc)
  · rintro rfl d hd
    exact isUpper_of_mem_alphabets (mem_alphabets hd)

theorem firstFree?_eq_some {style : NameStyle} {taken : List Char → Bool} {index i : Nat}
    {name : List Char} (h : style.firstFree? taken index = some (name, i)) :
    name = style.nameAt i ∧ name.length ≤ maxLength ∧ taken name = false := by
  fun_induction firstFree? style taken index with
  | case1 index name' hl ht ih => exact ih h
  | case2 index name' hl ht =>
    obtain ⟨rfl, rfl⟩ := Prod.mk.inj (Option.some.inj h)
    exact ⟨rfl, hl, by simpa using ht⟩
  | case3 index name' hl => cases h

end NameStyle

end ShaderPress
