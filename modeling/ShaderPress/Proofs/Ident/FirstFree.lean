import ShaderPress.Proofs.Ident.Generator

/-! # The search for a free name

A name never gets shorter as its number grows.  So the search stops at the first number whose
name is too long without missing a name, and it finds the first one that is not taken.
-/
namespace ShaderPress

namespace NameGenerator

theorem length_digits_mono (alphabet : List Char) {m n : Nat} (h : m ≤ n) :
    (digits alphabet m).length ≤ (digits alphabet n).length := by
  fun_induction digits alphabet n generalizing m with
  | case1 n hn =>
    have hm : m = 0 ∨ alphabet.length < 2 := by omega
    have hdigits : digits alphabet m = [] := by rw [digits, dif_pos hm]
    exact Nat.le_of_eq (congrArg List.length hdigits)
  | case2 n hn hlt hdiv ih =>
    rw [digits]
    split
    · exact Nat.zero_le _
    · rw [List.length_cons, List.length_cons]
      exact Nat.succ_le_succ (ih (Nat.div_le_div_right h))

theorem length_nameAt_mono {g : NameGenerator} (hf : g.first ≠ []) {i j : Nat} (h : i ≤ j) :
    (g.nameAt i).length ≤ (g.nameAt j).length := by
  obtain ⟨c, -, hi⟩ := exists_nameAt_eq_cons hf i
  obtain ⟨d, -, hj⟩ := exists_nameAt_eq_cons hf j
  rw [hi, hj, List.length_cons, List.length_cons]
  exact Nat.succ_le_succ (length_digits_mono _ (Nat.div_le_div_right h))

end NameGenerator

namespace NameStyle
variable {style : NameStyle} {taken : List Char → Bool} {index : Nat}

theorem length_nameAt_mono (style : NameStyle) {i j : Nat} (h : i ≤ j) :
    (style.nameAt i).length ≤ (style.nameAt j).length :=
  NameGenerator.length_nameAt_mono style.generator_first_ne h

/-- The search finds a name exactly if it is short, not taken and the first such from its start. -/
theorem firstFree?_eq_some_iff {name : List Char} {i : Nat} :
    style.firstFree? taken index = some (name, i) ↔
      index ≤ i ∧ name = style.nameAt i ∧ name.length ≤ maxLength ∧ taken name = false ∧
        ∀ j, index ≤ j → j < i → taken (style.nameAt j) = true := by
  fun_induction firstFree? style taken index with
  | case1 index name' hl ht ih =>
    rw [ih]
    constructor
    · rintro ⟨hi, rfl, hshort, hfree, hbefore⟩
      refine ⟨by omega, rfl, hshort, hfree, fun j hj hji => ?_⟩
      rcases Nat.eq_or_lt_of_le hj with rfl | hj
      · exact ht
      · exact hbefore j hj hji
    · rintro ⟨hi, rfl, hshort, hfree, hbefore⟩
      have hne : index ≠ i := by
        rintro rfl
        exact absurd (ht.symm.trans hfree) (by decide)
      exact ⟨by omega, rfl, hshort, hfree, fun j hj => hbefore j (by omega)⟩
  | case2 index name' hl ht =>
    have hfree : taken (style.nameAt index) = false := Bool.eq_false_iff.mpr ht
    constructor
    · intro h
      obtain ⟨rfl, rfl⟩ := Prod.mk.inj (Option.some.inj h)
      exact ⟨Nat.le_refl _, rfl, hl, hfree, fun j hj hji => absurd hji (Nat.not_lt.mpr hj)⟩
    · rintro ⟨hi, rfl, -, -, hbefore⟩
      rcases Nat.eq_or_lt_of_le hi with rfl | hlt
      · rfl
      · exact absurd (hfree.symm.trans (hbefore index (Nat.le_refl _) hlt)) (by decide)
  | case3 index name' hl =>
    constructor
    · intro h
      cases h
    · rintro ⟨hi, rfl, hshort, -⟩
      exact absurd (Nat.le_trans (length_nameAt_mono style hi) hshort) hl

theorem firstFree?_eq_none_iff : style.firstFree? taken index = none ↔
    ∀ j, index ≤ j → (style.nameAt j).length ≤ maxLength → taken (style.nameAt j) = true := by
  fun_induction firstFree? style taken index with
  | case1 index name hl ht ih =>
    rw [ih]
    constructor
    · intro h j hj hshort
      rcases Nat.eq_or_lt_of_le hj with rfl | hj
      · exact ht
      · exact h j hj hshort
    · exact fun h j hj => h j (by omega)
  | case2 index name hl ht =>
    exact iff_of_false (Option.some_ne_none _) fun h => ht (h index (Nat.le_refl _) hl)
  | case3 index name hl =>
    refine iff_of_true rfl fun j hj hshort => ?_
    exact absurd (Nat.le_trans (length_nameAt_mono style hj) hshort) hl

end NameStyle

end ShaderPress
